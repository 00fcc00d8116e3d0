import Mediation.Metadata.Key
import Mediation.Proofs.Text.Pieces

/-! # Where metadata are kept

The parts of a key's path tell the key, but for one case: the key of a version has the parts of an
artifact that is named like the version, in a group that is named like the artifact of that version.
As long as no part is empty or holds a slash, the path below a directory and the path below a URL
are one text, namely the parts with slashes between them.
-/

namespace Mediation

namespace Path

/-- The components of a path: the root if the path is absolute, and the names along it. Between
two slashes in a row there is no name, and a dot is one at the very front only. -/
def components (p : Text) : List Text :=
  match p.splitOn '/' with
  | [] => []
  | first :: rest =>
    (if isAbsolute p then [['/']] else if first.isEmpty then [] else [first]) ++
      rest.filter fun name => !name.isEmpty && name != ['.']

def IsSimple (part : Text) : Prop := part ≠ [] ∧ '/' ∉ part

instance : DecidablePred IsSimple := fun part =>
  inferInstanceAs (Decidable (part ≠ [] ∧ '/' ∉ part))

variable {path part : Text} {parts : List Text}

theorem IsSimple.isAbsolute_append (h : IsSimple part) (t : Text) :
    isAbsolute (part ++ t) = false := by
  cases part with
  | nil => exact absurd rfl h.1
  | cons c part =>
    have hc : c ≠ '/' := fun hc => h.2 (hc ▸ List.mem_cons_self)
    simpa [isAbsolute] using hc

theorem IsSimple.isAbsolute (h : IsSimple part) : isAbsolute part = false := by
  simpa using h.isAbsolute_append []

theorem IsSimple.getLast?_append (h : IsSimple part) (t : Text) :
    (t ++ part).getLast? ≠ some '/' := by
  rw [List.getLast?_append, List.getLast?_eq_some_getLast h.1, Option.some_or]
  intro hlast
  exact h.2 (Option.some.inj hlast ▸ List.getLast_mem h.1)

theorem foldl_push (hne : path ≠ []) (hlast : path.getLast? ≠ some '/')
    (h : ∀ p ∈ parts, IsSimple p) :
    parts.foldl push path = Text.joinWith ['/'] (path :: parts) := by
  induction parts generalizing path with
  | nil => exact (Text.joinWith_singleton _ _).symm
  | cons p parts ih =>
    have hp : IsSimple p := h p List.mem_cons_self
    have hpush : push path p = path ++ '/' :: p := by
      simp [push, hp.isAbsolute, hne, hlast]
    have hlast' : (path ++ '/' :: p).getLast? ≠ some '/' := by
      simpa using hp.getLast?_append (path ++ ['/'])
    rw [List.foldl_cons, hpush, ih (by simp) hlast' fun q hq => h q (List.mem_cons_of_mem p hq)]
    cases parts with
    | nil => simp [Text.joinWith_singleton, Text.joinWith_cons_cons]
    | cons q parts => simp [Text.joinWith_cons_cons]

theorem ofParts_eq_joinWith (h : ∀ p ∈ parts, IsSimple p) :
    ofParts parts = Text.joinWith ['/'] parts := by
  cases parts with
  | nil => rfl
  | cons p parts =>
    have hp : IsSimple p := h p List.mem_cons_self
    have hpush : push [] p = p := by simp [push, hp.isAbsolute]
    rw [ofParts, List.foldl_cons, hpush]
    apply foldl_push hp.1
    · simpa using hp.getLast?_append []
    · exact fun q hq => h q (List.mem_cons_of_mem p hq)

theorem components_joinWith (h : ∀ p ∈ parts, IsSimple p) (hdot : parts.head? ≠ some ['.']) :
    components (Text.joinWith ['/'] parts) = parts.filter (· != ['.']) := by
  cases parts with
  | nil => rfl
  | cons p parts =>
    have hp : IsSimple p := h p List.mem_cons_self
    have hsplit := Text.splitOn_joinWith (List.cons_ne_nil p parts) fun q hq => (h q hq).2
    have habs : Path.isAbsolute (Text.joinWith ['/'] (p :: parts)) = false := by
      cases parts with
      | nil => simpa [Text.joinWith_singleton] using hp.isAbsolute
      | cons q parts =>
        rw [Text.joinWith_cons_cons, List.append_assoc]
        exact hp.isAbsolute_append _
    have hrest : parts.filter (fun name => !name.isEmpty && name != ['.']) =
        parts.filter (· != ['.']) := by
      apply List.filter_congr
      intro q hq
      simp [(h q (List.mem_cons_of_mem p hq)).1]
    have hdot' : p ≠ ['.'] := by simpa using hdot
    rw [components, hsplit]
    simp [habs, hrest, hp.1, hdot']

end Path

namespace MetadataKey

variable {k l : MetadataKey}

/-- Whether a key is that of a version, and another one that of the artifact which is named like
the version in the group that is named like the artifact. -/
structure Nests (k l : MetadataKey) : Prop where
  version : k.version = some l.artifact
  none : l.version = none
  group : l.group = k.group ++ '.' :: k.artifact
  artifact : '.' ∉ k.artifact

theorem Nests.parts (h : k.Nests l) : k.parts = l.parts := by
  have hgroup : l.group.splitOn '.' = k.group.splitOn '.' ++ [k.artifact] := by
    rw [h.group, List.splitOn_append_cons_self, List.splitOn_eq_singleton h.artifact]
  simp [MetadataKey.parts, hgroup, h.version, h.none]

theorem names_of_parts (h : k.parts = l.parts) :
    k.group.splitOn '.' ++ [k.artifact] ++ k.version.toList =
      l.group.splitOn '.' ++ [l.artifact] ++ l.version.toList :=
  (List.append_inj' h rfl).1

theorem nests_of_parts {v : Text} (hk : k.version = some v) (hl : l.version = none)
    (h : k.parts = l.parts) : k.Nests l := by
  have hnames := names_of_parts h
  rw [hk, hl, Option.toList_none, List.append_nil] at hnames
  obtain ⟨hgroup, hversion⟩ := List.append_inj' hnames rfl
  have hmem : k.artifact ∈ l.group.splitOn '.' := hgroup ▸ by simp
  have hl' : l.group = k.group ++ '.' :: k.artifact := by
    rw [← Text.joinWith_splitOn '.' l.group, ← hgroup,
      Text.joinWith_append _ (List.splitOn_ne_nil _ _) (List.cons_ne_nil _ _),
      Text.joinWith_splitOn, Text.joinWith_singleton]
    simp
  exact ⟨by rw [hk, List.singleton_inj.mp hversion], hl, hl', Text.not_mem_of_mem_splitOn hmem⟩

theorem eq_of_parts (hv : k.version.toList.length = l.version.toList.length)
    (h : k.parts = l.parts) : k = l := by
  obtain ⟨hfront, hversion⟩ := List.append_inj' (names_of_parts h) hv
  obtain ⟨hgroup, hartifact⟩ := List.append_inj' hfront rfl
  obtain ⟨g, a, v⟩ := k
  obtain ⟨g', a', v'⟩ := l
  obtain rfl : g = g' := Text.eq_of_splitOn_eq hgroup
  obtain rfl : a = a' := List.singleton_inj.mp hartifact
  obtain rfl : v = v' := by simpa using congrArg List.head? hversion
  rfl

theorem parts_eq_iff : k.parts = l.parts ↔ k = l ∨ k.Nests l ∨ l.Nests k := by
  constructor
  · intro h
    cases hk : k.version with
    | none =>
      cases hl : l.version with
      | none => exact .inl (eq_of_parts (by rw [hk, hl]) h)
      | some v => exact .inr (.inr (nests_of_parts hl hk h.symm))
    | some v =>
      cases hl : l.version with
      | none => exact .inr (.inl (nests_of_parts hk hl h))
      | some w => exact .inl (eq_of_parts (by rw [hk, hl]; rfl) h)
  · rintro (rfl | h | h)
    · rfl
    · exact h.parts
    · exact h.parts.symm

example : (⟨"a", "b", some "c"⟩ : MetadataKey).Nests ⟨"a.b", "c", none⟩ :=
  ⟨rfl, rfl, by decide, by decide⟩

theorem urlPath_eq (k : MetadataKey) : k.urlPath = Text.joinWith ['/'] k.parts := by
  have hgroup : k.group.splitOn '.' ≠ [] := List.splitOn_ne_nil _ _
  rw [urlPath, parts, ← Text.joinWith_splitOn_replaced, List.append_assoc (List.splitOn _ _),
    List.append_assoc (List.splitOn _ _), Text.joinWith_append _ hgroup (by simp)]
  cases k.version <;> simp [Text.joinWith_singleton, Text.joinWith_cons_cons]

theorem relativePath_eq (h : ∀ p ∈ k.parts, Path.IsSimple p) :
    k.relativePath = Text.joinWith ['/'] k.parts :=
  Path.ofParts_eq_joinWith h

theorem head?_parts (k : MetadataKey) : k.parts.head? ≠ some ['.'] := by
  intro h
  cases hg : k.group.splitOn '.' with
  | nil => exact List.splitOn_ne_nil _ _ hg
  | cons p rest =>
    have hp : '.' ∉ p := Text.not_mem_of_mem_splitOn (hg ▸ List.mem_cons_self)
    simp [parts, hg] at h
    simp [h] at hp

/-- The path below a directory is the path below a URL. Its components with slashes between them
are that path as well, if and only if no part is a single dot. -/
theorem paths_agree (h : ∀ p ∈ k.parts, Path.IsSimple p) :
    k.relativePath = k.urlPath ∧
      (Text.joinWith ['/'] (Path.components k.relativePath) = k.urlPath ↔ ['.'] ∉ k.parts) := by
  rw [relativePath_eq h, urlPath_eq, Path.components_joinWith h k.head?_parts]
  refine ⟨rfl, ?_⟩
  constructor
  · intro heq hdot
    have hfile : fileName ∈ k.parts.filter (· != ['.']) :=
      List.mem_filter.mpr ⟨by simp [parts], by decide⟩
    have hparts := congrArg (List.splitOn '/') heq
    rw [Text.splitOn_joinWith (List.ne_nil_of_mem hfile) fun p hp =>
        (h p (List.mem_filter.mp hp).1).2,
      Text.splitOn_joinWith (List.ne_nil_of_mem hdot) fun p hp => (h p hp).2] at hparts
    rw [← hparts] at hdot
    simp at hdot
  · intro hdot
    rw [List.filter_eq_self.mpr]
    intro p hp
    simpa using fun heq : p = ['.'] => hdot (heq ▸ hp)

def snapshotKey : MetadataKey := ⟨"org.acme", "widget", some "1.0-SNAPSHOT"⟩

theorem paths_agree_of_snapshot : (∀ p ∈ snapshotKey.parts, Path.IsSimple p) ∧
    snapshotKey.relativePath = snapshotKey.urlPath ∧
      Text.joinWith ['/'] (Path.components snapshotKey.relativePath) = snapshotKey.urlPath := by
  have h : ∀ p ∈ snapshotKey.parts, Path.IsSimple p := by decide +kernel
  obtain ⟨hpath, hcomponents⟩ := paths_agree h
  exact ⟨h, hpath, hcomponents.mpr (by decide +kernel)⟩

/-- An artifact whose id is a single dot has its metadata in the directory of its group. -/
theorem components_ne_of_dot : (∀ p ∈ (⟨"g", ".", none⟩ : MetadataKey).parts, Path.IsSimple p) ∧
    Text.joinWith ['/'] (Path.components (⟨"g", ".", none⟩ : MetadataKey).relativePath) ≠
      (⟨"g", ".", none⟩ : MetadataKey).urlPath := by
  decide +kernel

end MetadataKey

end Mediation
