import Mathlib.Data.List.Basic
import Mediation.Metadata.Key
import Mediation.Proofs.Text.Pieces

/-! # Places that paths lead to

A path leads to a place from the root of a file tree, name by name: nothing and a dot stay where
they are, two dots go back by one name. A path that is extended by a part leads where the part
leads from its place, unless the part is absolute. So the file of a key stands where the parts of
the key lead from the directory of the repository.
-/

namespace Mediation

namespace Path

variable {path part p q root : Text}

def enter (place : List Text) (name : Text) : List Text :=
  if name.isEmpty || name = ['.'] then place
  else if name = ['.', '.'] then place.dropLast
  else place ++ [name]

def along (place names : List Text) : List Text := names.foldl enter place

def place (path : Text) : List Text := along [] (path.splitOn '/')

def lead (place : List Text) (part : Text) : List Text :=
  if isAbsolute part then Path.place part else along place (part.splitOn '/')

@[simp] theorem enter_nil (place : List Text) : enter place [] = place := rfl

@[simp] theorem along_nil (place : List Text) : along place [] = place := rfl

@[simp] theorem along_cons (place : List Text) (name : Text) (names : List Text) :
    along place (name :: names) = along (enter place name) names := rfl

theorem along_append (place names others : List Text) :
    along place (names ++ others) = along (along place names) others := List.foldl_append

/-- A path with a slash at its end, to which a part can be appended. -/
def stem (path : Text) : Text :=
  if path.isEmpty || path.getLast? == some '/' then path else path ++ ['/']

theorem push_of_isAbsolute (h : isAbsolute part = true) : push path part = part := by
  simp [push, h]

theorem push_eq_stem (h : isAbsolute part = false) : push path part = stem path ++ part := by
  rw [push, stem, if_neg (by simp [h])]
  split
  · rfl
  · rw [List.append_assoc, List.singleton_append]

theorem stem_append (hp : p ≠ []) : stem (q ++ p) = q ++ stem p := by
  have hlast : (q ++ p).getLast? = p.getLast? := by
    rw [List.getLast?_append, List.getLast?_eq_some_getLast hp, Option.some_or]
  have hempty : (q ++ p).isEmpty = p.isEmpty := by
    rw [List.isEmpty_eq_false_iff.mpr hp, List.isEmpty_eq_false_iff.mpr (by simp [hp])]
  rw [stem, stem, hlast, hempty]
  split
  · rfl
  · rw [List.append_assoc]

theorem stem_stem (path : Text) : stem (stem path) = stem path := by
  by_cases h : (path.isEmpty || path.getLast? == some '/') = true
  · have hstem : stem path = path := by rw [stem, if_pos h]
    rw [hstem, hstem]
  · have hstem : stem path = path ++ ['/'] := by rw [stem, if_neg h]
    rw [hstem, stem_append (List.cons_ne_nil _ _)]
    rfl

theorem isAbsolute_append (hp : p ≠ []) (q : Text) : isAbsolute (p ++ q) = isAbsolute p := by
  cases p with
  | nil => exact absurd rfl hp
  | cons c p => rfl

theorem push_push (root p q : Text) : push root (push p q) = push (push root p) q := by
  cases hq : isAbsolute q with
  | true => rw [push_of_isAbsolute hq, push_of_isAbsolute hq, push_of_isAbsolute hq]
  | false =>
    rw [push_eq_stem hq, push_eq_stem hq]
    cases p with
    | nil =>
      have hnil : push root [] = stem root := by rw [push_eq_stem rfl, List.append_nil]
      rw [hnil, stem_stem]
      exact push_eq_stem hq
    | cons c p =>
      have hne : c :: p ≠ [] := List.cons_ne_nil c p
      have hstem : stem (c :: p) ≠ [] := by
        rw [stem]
        split <;> simp
      have habs : isAbsolute (stem (c :: p) ++ q) = isAbsolute (c :: p) := by
        rw [stem]
        split <;> rfl
      cases hp : isAbsolute (c :: p) with
      | true => rw [push_of_isAbsolute (habs.trans hp), push_of_isAbsolute hp]
      | false =>
        rw [push_eq_stem (habs.trans hp), push_eq_stem hp, stem_append hne, List.append_assoc]

theorem push_foldl (root p : Text) (parts : List Text) :
    push root (parts.foldl push p) = parts.foldl push (push root p) := by
  induction parts generalizing p with
  | nil => rfl
  | cons q parts ih => rw [List.foldl_cons, ih, push_push, List.foldl_cons]

theorem push_ofParts (root : Text) {parts : List Text} (hne : parts ≠ []) :
    push root (ofParts parts) = parts.foldl push root := by
  cases parts with
  | nil => exact absurd rfl hne
  | cons p parts =>
    have hp : push [] p = p := by
      rw [push]
      split <;> simp
    rw [ofParts, List.foldl_cons, hp, push_foldl, List.foldl_cons]

theorem place_stem_append (path part : Text) :
    Path.place (stem path ++ part) = along (Path.place path) (part.splitOn '/') := by
  by_cases hempty : path = []
  · subst hempty
    rfl
  · by_cases hlast : path.getLast? = some '/'
    · obtain ⟨front, rfl⟩ : ∃ front, path = front ++ ['/'] :=
        ⟨path.dropLast, (List.dropLast_append_getLast? '/' hlast).symm⟩
      have hstem : stem (front ++ ['/']) = front ++ ['/'] := by simp [stem]
      rw [hstem, List.append_assoc, List.singleton_append, Path.place, Path.place,
        List.splitOn_append_cons_self, List.splitOn_append_cons_self, along_append, along_append]
      rfl
    · have hstem : stem path = path ++ ['/'] := by simp [stem, hempty, hlast]
      rw [hstem, List.append_assoc, List.singleton_append, Path.place, Path.place,
        List.splitOn_append_cons_self, along_append]

theorem place_push (path part : Text) :
    Path.place (push path part) = lead (Path.place path) part := by
  cases h : isAbsolute part with
  | true => simp [push_of_isAbsolute h, lead, h]
  | false => simp [push_eq_stem h, place_stem_append, lead, h]

theorem place_foldl_push (root : Text) (parts : List Text) :
    Path.place (parts.foldl push root) = parts.foldl lead (Path.place root) := by
  induction parts generalizing root with
  | nil => rfl
  | cons p parts ih => rw [List.foldl_cons, ih, place_push, List.foldl_cons]

end Path

/-- The file of a key stands where the parts of the key lead from the directory. -/
theorem MetadataKey.place_relativePath (root : Text) (k : MetadataKey) :
    Path.place (Path.push root k.relativePath) = k.parts.foldl Path.lead (Path.place root) := by
  have hne : k.parts ≠ [] := by simp [parts]
  rw [relativePath, Path.push_ofParts root hne, Path.place_foldl_push]

end Mediation
