/-! # Tables

A table gives values to keys and keeps its keys in the order of their first entry.
-/

namespace Mediation

/-- Values by key, in the order in which the keys came. -/
structure Table (κ ν : Type) where
  entries : List (κ × ν)
  deriving Repr

namespace Table

variable {κ ν : Type} [DecidableEq κ]

def empty : Table κ ν := ⟨[]⟩

instance : Inhabited (Table κ ν) := ⟨empty⟩

def entryValue (k : κ) : List (κ × ν) → Option ν
  | [] => none
  | e :: es => if e.1 = k then some e.2 else entryValue k es

def get? (t : Table κ ν) (k : κ) : Option ν := entryValue k t.entries

/-- The entries with the value of a key replaced, or a new entry at the end. -/
def putEntry (k : κ) (v : ν) : List (κ × ν) → List (κ × ν)
  | [] => [(k, v)]
  | e :: es => if e.1 = k then (k, v) :: es else e :: putEntry k v es

def put (t : Table κ ν) (k : κ) (v : ν) : Table κ ν := ⟨putEntry k v t.entries⟩

def keep (t : Table κ ν) (p : κ → Bool) : Table κ ν := ⟨t.entries.filter (p ·.1)⟩

def erase (t : Table κ ν) (k : κ) : Table κ ν := t.keep (· != k)

/-- The table of a list of entries, where a later value replaces an earlier one. -/
def ofList (es : List (κ × ν)) : Table κ ν := es.foldl (fun t e => t.put e.1 e.2) empty

def size (t : Table κ ν) : Nat := t.entries.length

@[simp] theorem get?_empty (k : κ) : (empty : Table κ ν).get? k = none := rfl

theorem entryValue_putEntry_self (k : κ) (v : ν) (es : List (κ × ν)) :
    entryValue k (putEntry k v es) = some v := by
  induction es with
  | nil => simp [putEntry, entryValue]
  | cons e es ih =>
    rw [putEntry]
    split
    · simp [entryValue]
    · rename_i h
      simp [entryValue, h, ih]

theorem entryValue_putEntry_of_ne {k l : κ} (h : l ≠ k) (v : ν) (es : List (κ × ν)) :
    entryValue l (putEntry k v es) = entryValue l es := by
  induction es with
  | nil => simp [putEntry, entryValue, h.symm]
  | cons e es ih =>
    rw [putEntry]
    split
    · rename_i he
      simp [entryValue, he, h.symm]
    · simp [entryValue, ih]

@[simp] theorem get?_put_self (t : Table κ ν) (k : κ) (v : ν) : (t.put k v).get? k = some v :=
  entryValue_putEntry_self k v t.entries

theorem get?_put_of_ne (t : Table κ ν) {k l : κ} (h : l ≠ k) (v : ν) :
    (t.put k v).get? l = t.get? l :=
  entryValue_putEntry_of_ne h v t.entries

theorem get?_put (t : Table κ ν) (k l : κ) (v : ν) :
    (t.put k v).get? l = if l = k then some v else t.get? l := by
  split
  · rename_i h
    rw [h, get?_put_self]
  · rename_i h
    exact t.get?_put_of_ne h v

theorem entryValue_filter (p : κ → Bool) (k : κ) (es : List (κ × ν)) :
    entryValue k (es.filter (p ·.1)) = if p k then entryValue k es else none := by
  induction es with
  | nil => simp [entryValue]
  | cons e es ih =>
    rw [List.filter_cons]
    by_cases he : e.1 = k
    · subst he
      cases hp : p e.1 <;> simp [entryValue, ih, hp]
    · cases hp : p e.1 <;> simp [entryValue, ih, he]

theorem get?_keep (t : Table κ ν) (p : κ → Bool) (k : κ) :
    (t.keep p).get? k = if p k then t.get? k else none :=
  entryValue_filter p k t.entries

theorem get?_erase (t : Table κ ν) (k l : κ) :
    (t.erase k).get? l = if l = k then none else t.get? l := by
  simp [erase, get?_keep]

end Table

end Mediation
