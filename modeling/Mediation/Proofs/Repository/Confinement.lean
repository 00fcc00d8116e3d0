import Mediation.Proofs.Repository.Filing

/-! # Files below a directory

The file of a key lies below the directory of the repository, whichever directory that is, if and
only if no part of the key is absolute and the names of the parts never lead further up than they
led down before. Nothing keeps the parts of a key from that: an id may be any text.
-/

namespace Mediation

namespace Path

variable {base rest place : List Text} {name part x : Text} {names parts : List Text} {depth : Nat}

def IsBelow (base place : List Text) : Prop := base <+: place ∧ base ≠ place

def staysBelow (depth : Nat) : List Text → Bool
  | [] => true
  | name :: names =>
    if name.isEmpty || name = ['.'] then staysBelow depth names
    else if name = ['.', '.'] then depth != 0 && staysBelow (depth - 1) names
    else staysBelow (depth + 1) names

theorem along_append_of_staysBelow (base rest : List Text)
    (h : staysBelow rest.length names = true) :
    along (base ++ rest) names = base ++ along rest names := by
  induction names generalizing rest with
  | nil => rfl
  | cons name names ih =>
    rw [staysBelow] at h
    rw [along_cons, along_cons, enter, enter]
    split_ifs at h ⊢ with hstay hback
    · exact ih rest h
    · rw [Bool.and_eq_true, bne_iff_ne, ne_eq, List.length_eq_zero_iff] at h
      obtain ⟨hne, h⟩ := h
      rw [List.dropLast_append_of_ne_nil hne]
      exact ih _ (by rwa [List.length_dropLast])
    · rw [List.append_assoc]
      exact ih _ (by simpa using h)

theorem mem_enter (h : x ∈ enter place name) : x ∈ place ∨ x = name := by
  rw [enter] at h
  split_ifs at h
  · exact .inl h
  · exact .inl (List.dropLast_subset _ h)
  · simpa using h

theorem mem_along (h : x ∈ along place names) : x ∈ place ∨ x ∈ names := by
  induction names generalizing place with
  | nil => exact .inl h
  | cons name names ih =>
    rcases ih h with h | h
    · rcases mem_enter h with h | rfl
      · exact .inl h
      · exact .inr List.mem_cons_self
    · exact .inr (List.mem_cons_of_mem name h)

theorem not_mem_along (rest : List Text) (hx : x ∉ rest ++ names)
    (h : staysBelow rest.length names = false) :
    x ∉ along (x :: rest) names := by
  induction names generalizing rest with
  | nil => cases h
  | cons name names ih =>
    rw [staysBelow] at h
    rw [along_cons, enter]
    split_ifs at h ⊢ with hstay hback
    · exact ih rest (by simp_all) h
    · cases rest with
      | nil =>
        intro hmem
        have hnames := mem_along hmem
        simp_all
      | cons y rest =>
        rw [List.dropLast_cons_of_ne_nil (List.cons_ne_nil y rest)]
        apply ih
        · intro hmem
          rcases List.mem_append.mp hmem with hmem | hmem
          · exact hx (List.mem_append_left _ (List.dropLast_subset _ hmem))
          · exact hx (List.mem_append_right _ (List.mem_cons_of_mem _ hmem))
        · simpa using h
    · rw [List.cons_append]
      exact ih _ (by simp_all) (by simpa using h)

def namesOf (parts : List Text) : List Text := parts.flatMap (·.splitOn '/')

theorem namesOf_cons (part : Text) (parts : List Text) :
    namesOf (part :: parts) = part.splitOn '/' ++ namesOf parts := List.flatMap_cons

theorem foldl_lead_of_relative (h : ∀ part ∈ parts, isAbsolute part = false) :
    parts.foldl lead base = along base (namesOf parts) := by
  induction parts generalizing base with
  | nil => rfl
  | cons part parts ih =>
    have hpart : lead base part = along base (part.splitOn '/') := by
      rw [lead, h part List.mem_cons_self]
      rfl
    rw [List.foldl_cons, hpart, ih fun q hq => h q (List.mem_cons_of_mem part hq), namesOf_cons,
      along_append]

theorem mem_lead (h : x ∈ lead base part) : x ∈ base ∨ x ∈ part.splitOn '/' := by
  rw [lead] at h
  split at h
  · right
    rcases mem_along h with h | h
    · cases h
    · exact h
  · exact mem_along h

theorem mem_foldl_lead (h : x ∈ parts.foldl lead base) : x ∈ base ∨ x ∈ namesOf parts := by
  induction parts generalizing base with
  | nil => exact .inl h
  | cons part parts ih =>
    rw [namesOf_cons, List.mem_append]
    rcases ih h with h | h
    · exact (mem_lead h).imp_right .inl
    · exact .inr (.inr h)

theorem not_mem_foldl_lead (hpart : part ∈ parts) (habsolute : isAbsolute part = true)
    (hx : x ∉ namesOf parts) : x ∉ parts.foldl lead base := by
  induction parts generalizing base with
  | nil => cases hpart
  | cons first parts ih =>
    rw [namesOf_cons, List.mem_append, not_or] at hx
    obtain ⟨hfirst, hrest⟩ := hx
    rcases List.mem_cons.mp hpart with rfl | hpart
    · intro hmem
      rw [List.foldl_cons, lead, if_pos habsolute] at hmem
      rcases mem_foldl_lead hmem with hmem | hmem
      · rcases mem_along hmem with hmem | hmem
        · cases hmem
        · exact hfirst hmem
      · exact hrest hmem
    · exact ih hpart hrest

theorem namesOf_of_isPlain (h : ∀ part ∈ parts, IsPlain part) : namesOf parts = parts := by
  induction parts with
  | nil => rfl
  | cons part parts ih =>
    have hpart : part.splitOn '/' = [part] :=
      List.splitOn_eq_singleton (h part List.mem_cons_self).1.2
    rw [namesOf_cons, hpart, ih fun q hq => h q (List.mem_cons_of_mem part hq)]
    rfl

theorem staysBelow_of_isPlain (h : ∀ name ∈ names, IsPlain name) (depth : Nat) :
    staysBelow depth names = true := by
  induction names generalizing depth with
  | nil => rfl
  | cons name names ih =>
    obtain ⟨⟨hempty, -⟩, hdot, hdots⟩ := h name List.mem_cons_self
    have hrest := ih (fun q hq => h q (List.mem_cons_of_mem name hq)) (depth + 1)
    simp [staysBelow, hempty, hdot, hdots, hrest]

theorem exists_isPlain_not_mem (names : List Text) : ∃ x, IsPlain x ∧ x ∉ names := by
  refine ⟨List.replicate (names.flatten.length + 1) 'x', ⟨⟨?_, ?_⟩, ?_, ?_⟩, ?_⟩
  · simp
  · simp
  · simp [List.replicate_succ]
  · simp [List.replicate_succ]
  · intro hmem
    have hle := (List.sublist_flatten_of_mem hmem).length_le
    simp at hle

theorem place_of_isPlain (h : IsPlain part) : Path.place part = [part] := by
  have hlead := h.lead []
  rwa [lead, h.1.isAbsolute] at hlead

end Path

namespace MetadataKey

variable {k : MetadataKey}

/-- Whether no part of a key is absolute, and its names never lead above where they start. -/
def IsConfined (k : MetadataKey) : Prop :=
  (∀ part ∈ k.parts, Path.isAbsolute part = false) ∧ Path.staysBelow 0 (Path.namesOf k.parts) = true

instance : DecidablePred IsConfined := fun k =>
  inferInstanceAs (Decidable ((∀ part ∈ k.parts, Path.isAbsolute part = false) ∧
    Path.staysBelow 0 (Path.namesOf k.parts) = true))

theorem isConfined_of_isPlain (h : ∀ part ∈ k.parts, Path.IsPlain part) : k.IsConfined := by
  constructor
  · intro part hpart
    exact (h part hpart).1.isAbsolute
  · rw [Path.namesOf_of_isPlain h]
    exact Path.staysBelow_of_isPlain h 0

theorem IsConfined.isBelow (h : k.IsConfined) (base : List Text) :
    Path.IsBelow base (k.parts.foldl Path.lead base) := by
  obtain ⟨hrelative, hstays⟩ := h
  have hplace : k.parts.foldl Path.lead base = base ++ Path.along [] (Path.namesOf k.parts) := by
    rw [Path.foldl_lead_of_relative hrelative]
    simpa using Path.along_append_of_staysBelow base [] hstays
  -- the last name is that of the file
  have hlast : ∃ front, Path.along [] (Path.namesOf k.parts) = front ++ [fileName] := by
    rw [parts, Path.namesOf, List.flatMap_append, Path.along_append]
    exact ⟨_, rfl⟩
  obtain ⟨front, hfront⟩ := hlast
  rw [hplace, hfront]
  constructor
  · exact List.prefix_append _ _
  · simp

theorem not_isBelow (h : ¬ k.IsConfined) {x : Text} (hx : x ∉ Path.namesOf k.parts) :
    ¬ Path.IsBelow [x] (k.parts.foldl Path.lead [x]) := by
  intro hbelow
  have hmem : x ∈ k.parts.foldl Path.lead [x] := hbelow.1.subset List.mem_cons_self
  by_cases hrelative : ∀ part ∈ k.parts, Path.isAbsolute part = false
  · have hleaves : Path.staysBelow 0 (Path.namesOf k.parts) = false := by
      rw [IsConfined, not_and] at h
      exact Bool.not_eq_true _ ▸ h hrelative
    rw [Path.foldl_lead_of_relative hrelative] at hmem
    exact Path.not_mem_along [] hx hleaves hmem
  · push Not at hrelative
    obtain ⟨part, hpart, habsolute⟩ := hrelative
    exact Path.not_mem_foldl_lead hpart (by simpa using habsolute) hx hmem

end MetadataKey

/-- What stands outside the directory stays when an envelope with a confined key is stored. -/
theorem Disk.entry?_store_of_isConfined {d : Disk} {m : Envelope} {root : Text} {place : List Text}
    {e : FileEntry} (h : m.key.IsConfined) (hplace : ¬ Path.IsBelow (Path.place root) place)
    (he : d.tree.entry? place = some e) :
    FileTree.entry? (d.store (.inDirectory root) m).2.tree place = some e := by
  rw [store_tree (envelopePath_inDirectory root m.key)]
  apply FileTree.entry?_write_of_ne _ he
  rintro rfl
  apply hplace
  rw [m.key.place_relativePath]
  exact h.isBelow _

/-- The file of a key lies below every directory that a repository may be in, if and only if the
key is confined. -/
theorem Disk.file_isBelow_iff (k : MetadataKey) :
    (∀ root, ∃ path, Disk.envelopePath k (.inDirectory root) = .ok path ∧
      Path.IsBelow (Path.place root) (Path.place path)) ↔ k.IsConfined := by
  have hfile : ∀ root, (∃ path, Disk.envelopePath k (.inDirectory root) = .ok path ∧
      Path.IsBelow (Path.place root) (Path.place path)) ↔
        Path.IsBelow (Path.place root) (k.parts.foldl Path.lead (Path.place root)) := by
    intro root
    rw [← k.place_relativePath]
    constructor
    · rintro ⟨path, hpath, hbelow⟩
      cases hpath
      exact hbelow
    · intro hbelow
      exact ⟨_, rfl, hbelow⟩
  constructor
  · intro h
    by_contra hconfined
    obtain ⟨x, hplain, hx⟩ := Path.exists_isPlain_not_mem (Path.namesOf k.parts)
    have hbelow := (hfile x).mp (h x)
    rw [Path.place_of_isPlain hplain] at hbelow
    exact MetadataKey.not_isBelow hconfined hx hbelow
  · intro hconfined root
    exact (hfile root).mpr (hconfined.isBelow _)

example : ¬ (⟨"g", "../../other", none⟩ : MetadataKey).IsConfined := by decide +kernel

end Mediation
