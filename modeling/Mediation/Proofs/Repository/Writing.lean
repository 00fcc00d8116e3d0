import Mathlib.Data.List.Infix
import Mediation.Proofs.Repository.Place
import Mediation.Repository.FileTree

/-! # Files that are written and read

Writing a file makes directories where nothing stood, and puts the file at the place of its path. So
every directory stays and every other file keeps its content: what is read from a path afterwards is
what was written last to its place. A file can be written where no file stands in the way and no
directory at its end.
-/

namespace Mediation

namespace FileTree

variable {t u w : FileTree} {here place : List Text} {name path other : Text} {names : List Text}
  {content : Option Text} {e : FileEntry}

theorem isDirectory_nil (t : FileTree) : t.isDirectory [] = true := rfl

theorem isDirectory_iff : t.isDirectory place = true ↔ t.entry? place = some .directory := by
  simp [isDirectory]

theorem ne_nil_of_not_directory (h : t.isDirectory place = false) : place ≠ [] := by
  rintro rfl
  cases h

theorem not_directory_of_none (h : t.entry? place = none) : t.isDirectory place = false := by
  simp [isDirectory, h]

def put (t : FileTree) (place : List Text) (e : FileEntry) : FileTree := ⟨t.entries.put place e⟩

theorem entry?_put (hne : place ≠ []) :
    FileTree.entry? (t.put place e) here = if here = place then some e else t.entry? here := by
  cases here with
  | nil => simp [FileTree.entry?, hne.symm]
  | cons name here => simp [FileTree.entry?, put, Table.get?_put]

/-- Whether directories were added to a tree where nothing stood, and nothing else. -/
def Grows (t u : FileTree) : Prop :=
  ∀ place, u.entry? place = t.entry? place ∨
    t.entry? place = none ∧ u.entry? place = some .directory

/-- Whether every directory of a tree stands in another one, where nothing is missing. -/
structure Keeps (t u : FileTree) : Prop where
  directory : ∀ place, t.isDirectory place = true → u.isDirectory place = true
  stands : ∀ place, (t.entry? place).isSome = true → (u.entry? place).isSome = true

theorem Grows.refl (t : FileTree) : Grows t t := fun _ => .inl rfl

theorem Grows.trans (htu : Grows t u) (huw : Grows u w) : Grows t w := by
  intro place
  rcases htu place with htu | ⟨hnone, hdir⟩
  · rw [← htu]
    exact huw place
  · right
    rcases huw place with huw | ⟨hnone', -⟩
    · exact ⟨hnone, huw.trans hdir⟩
    · rw [hdir] at hnone'
      cases hnone'

theorem Grows.stands (h : Grows t u) (hs : t.entry? place = some e) : u.entry? place = some e := by
  rcases h place with h | ⟨hnone, -⟩
  · exact h.trans hs
  · rw [hs] at hnone
    cases hnone

theorem Grows.keeps (h : Grows t u) : Keeps t u where
  directory place hdir := isDirectory_iff.mpr (h.stands (isDirectory_iff.mp hdir))
  stands place hs := by
    obtain ⟨e, he⟩ := Option.isSome_iff_exists.mp hs
    rw [h.stands he]
    rfl

theorem grows_put (h : t.entry? place = none) : Grows t (t.put place .directory) := by
  intro here
  rw [entry?_put (ne_nil_of_not_directory (not_directory_of_none h))]
  split
  · rename_i heq
    exact .inr ⟨heq ▸ h, rfl⟩
  · exact .inl rfl

theorem keeps_put (h : t.isDirectory place = false) : Keeps t (t.put place e) := by
  have hne : place ≠ [] := ne_nil_of_not_directory h
  exact {
    directory here hdir := by
      have hother : here ≠ place := by
        rintro rfl
        simp [hdir] at h
      rw [isDirectory_iff, entry?_put hne, if_neg hother]
      exact isDirectory_iff.mp hdir
    stands here hs := by
      rw [entry?_put hne]
      split
      · rfl
      · exact hs }

theorem Keeps.trans (htu : Keeps t u) (huw : Keeps u w) : Keeps t w where
  directory place h := huw.directory place (htu.directory place h)
  stands place h := huw.stands place (htu.stands place h)

theorem byteLength_le_of_mem (h : name ∈ [[], ['.'], ['.', '.']]) :
    byteLength name ≤ nameLimit := by
  have hall : ∀ n ∈ [[], ['.'], ['.', '.']], byteLength n ≤ nameLimit := by decide
  exact hall name h

theorem next_eq (hdir : t.isDirectory here = true) : t.next here name =
    if nameLimit < byteLength name then .error .tooLong else .ok (Path.enter here name) := by
  by_cases hshort : name ∈ [[], ['.'], ['.', '.']]
  · rw [if_neg (Nat.not_lt.mpr (byteLength_le_of_mem hshort)), next, Path.enter, hdir]
    simp only [List.mem_cons, List.not_mem_nil, or_false] at hshort
    rcases hshort with rfl | rfl | rfl <;> rfl
  · simp only [List.mem_cons, List.not_mem_nil, or_false, not_or] at hshort
    obtain ⟨hempty, hdot, hdots⟩ := hshort
    simp [next, Path.enter, hdir, hempty, hdot, hdots]

theorem next_eq_ok_iff : t.next here name = .ok place ↔
    t.isDirectory here = true ∧ byteLength name ≤ nameLimit ∧ place = Path.enter here name := by
  cases hdir : t.isDirectory here with
  | false => simp [next, hdir]
  | true =>
    rw [next_eq hdir, ← Nat.not_lt]
    split
    · simp_all
    · rename_i hfits
      constructor
      · intro h
        exact ⟨rfl, hfits, (Except.ok.inj h).symm⟩
      · rintro ⟨-, -, rfl⟩
        rfl

theorem walk_cons_eq_ok_iff : t.walk here (name :: names) = .ok place ↔
    t.next here name = .ok (Path.enter here name) ∧
      (t.entry? (Path.enter here name)).isSome = true ∧
        t.walk (Path.enter here name) names = .ok place := by
  rw [walk]
  cases hnext : t.next here name with
  | error fault => simp [bind, Except.bind]
  | ok next =>
    obtain rfl := (next_eq_ok_iff.mp hnext).2.2
    cases hs : t.entry? (Path.enter here name) <;>
      simp [hs, bind, Except.bind, throw, throwThe, MonadExceptOf.throw]

theorem eq_along_of_walk (h : t.walk here names = .ok place) : place = Path.along here names := by
  induction names generalizing here with
  | nil => exact (Except.ok.inj h).symm
  | cons name names ih => exact ih (walk_cons_eq_ok_iff.mp h).2.2

theorem Keeps.next (hk : Keeps t u) (h : t.next here name = .ok place) :
    u.next here name = .ok place := by
  obtain ⟨hdir, hfits, rfl⟩ := next_eq_ok_iff.mp h
  exact next_eq_ok_iff.mpr ⟨hk.directory here hdir, hfits, rfl⟩

theorem Keeps.walk (hk : Keeps t u) (h : t.walk here names = .ok place) :
    u.walk here names = .ok place := by
  induction names generalizing here with
  | nil => exact h
  | cons name names ih =>
    obtain ⟨hnext, hs, hrest⟩ := walk_cons_eq_ok_iff.mp h
    exact walk_cons_eq_ok_iff.mpr ⟨hk.next hnext, hk.stands _ hs, ih hrest⟩

theorem walk_concat_eq_ok_iff {last : List Text} : t.walk here (names ++ [name]) = .ok last ↔
    ∃ place, t.walk here names = .ok place ∧ t.next place name = .ok last ∧
      (t.entry? last).isSome = true := by
  induction names generalizing here with
  | nil =>
    rw [List.nil_append, walk_cons_eq_ok_iff]
    constructor
    · rintro ⟨hnext, hs, hlast⟩
      obtain rfl := Except.ok.inj hlast
      exact ⟨here, rfl, hnext, hs⟩
    · rintro ⟨place, hplace, hnext, hs⟩
      obtain rfl := Except.ok.inj hplace
      obtain rfl := (next_eq_ok_iff.mp hnext).2.2
      exact ⟨hnext, hs, rfl⟩
  | cons first names ih =>
    rw [List.cons_append, walk_cons_eq_ok_iff, ih]
    simp only [walk_cons_eq_ok_iff]
    constructor
    · rintro ⟨hfirst, hs, place, hrest⟩
      exact ⟨place, ⟨hfirst, hs, hrest.1⟩, hrest.2⟩
    · rintro ⟨place, ⟨hfirst, hs, hwalk⟩, hrest⟩
      exact ⟨hfirst, hs, place, hwalk, hrest⟩

theorem makeDirectories_cons (hnext : t.next here name = .ok place) :
    t.makeDirectories here (name :: names) =
      if (t.entry? place).isSome then t.makeDirectories place names
      else (t.put place .directory).makeDirectories place names := by
  rw [makeDirectories, hnext]
  rfl

theorem grows_makeDirectories (t : FileTree) (here : List Text) (names : List Text) :
    Grows t (t.makeDirectories here names).2 := by
  induction names generalizing t here with
  | nil =>
    rw [makeDirectories]
    split <;> exact .refl t
  | cons name names ih =>
    cases hnext : t.next here name with
    | error fault =>
      rw [makeDirectories, hnext]
      exact .refl t
    | ok place =>
      rw [makeDirectories_cons hnext]
      split
      · exact ih t place
      · rename_i hnone
        exact (grows_put (by simpa using hnone)).trans (ih _ place)

theorem walk_makeDirectories (h : t.makeDirectories here names = (.ok place, u)) :
    u.walk here names = .ok place ∧ u.isDirectory place = true := by
  induction names generalizing t here with
  | nil =>
    rw [makeDirectories] at h
    split at h
    · rename_i hdir
      cases h
      exact ⟨rfl, hdir⟩
    · cases h
  | cons name names ih =>
    have hgrows := grows_makeDirectories t here (name :: names)
    rw [h] at hgrows
    cases hnext : t.next here name with
    | error fault =>
      rw [makeDirectories, hnext] at h
      cases h
    | ok next =>
      obtain rfl := (next_eq_ok_iff.mp hnext).2.2
      rw [makeDirectories_cons hnext] at h
      have hnext' := hgrows.keeps.next hnext
      split at h
      · rename_i hs
        obtain ⟨hwalk, hdir⟩ := ih h
        exact ⟨walk_cons_eq_ok_iff.mpr ⟨hnext', hgrows.keeps.stands _ hs, hwalk⟩, hdir⟩
      · rename_i hs
        have hne := ne_nil_of_not_directory (not_directory_of_none (by simpa using hs))
        have hput := grows_makeDirectories (t.put (Path.enter here name) .directory)
          (Path.enter here name) names
        rw [h] at hput
        have hs' : u.entry? (Path.enter here name) = some .directory :=
          hput.stands (by rw [entry?_put hne, if_pos rfl])
        obtain ⟨hwalk, hdir⟩ := ih h
        exact ⟨walk_cons_eq_ok_iff.mpr ⟨hnext', by rw [hs']; rfl, hwalk⟩, hdir⟩

theorem entry?_makeDirectories (hway : ∀ ns, ns <+: names → Path.along here ns ≠ place) :
    FileTree.entry? (t.makeDirectories here names).2 place = t.entry? place := by
  induction names generalizing t here with
  | nil =>
    rw [makeDirectories]
    split <;> rfl
  | cons name names ih =>
    cases hnext : t.next here name with
    | error fault => rw [makeDirectories, hnext]
    | ok next =>
      obtain rfl := (next_eq_ok_iff.mp hnext).2.2
      have hway' : ∀ ns, ns <+: names → Path.along (Path.enter here name) ns ≠ place :=
        fun ns hns => hway (name :: ns) (List.cons_prefix_cons.mpr ⟨rfl, hns⟩)
      rw [makeDirectories_cons hnext]
      split
      · exact ih hway'
      · rename_i hs
        have hne := ne_nil_of_not_directory (not_directory_of_none (by simpa using hs))
        have hother : place ≠ Path.enter here name := (hway' [] List.nil_prefix).symm
        rw [ih hway', entry?_put hne, if_neg hother]

theorem makeDirectories_of_walk (h : t.walk here names = .ok place)
    (hdir : t.isDirectory place = true) : t.makeDirectories here names = (.ok place, t) := by
  induction names generalizing here with
  | nil =>
    obtain rfl : here = place := Except.ok.inj h
    rw [makeDirectories, if_pos hdir]
  | cons name names ih =>
    obtain ⟨hnext, hs, hrest⟩ := walk_cons_eq_ok_iff.mp h
    rw [makeDirectories_cons hnext, if_pos hs, ih hrest]

theorem exists_makeDirectories (hdir : t.isDirectory here = true)
    (hfits : ∀ name ∈ names, byteLength name ≤ nameLimit)
    (hway : ∀ ns, ns <+: names → ∀ content, t.entry? (Path.along here ns) ≠ some (.file content)) :
    ∃ u, t.makeDirectories here names = (.ok (Path.along here names), u) := by
  induction names generalizing t here with
  | nil => exact ⟨t, by rw [makeDirectories, if_pos hdir]; rfl⟩
  | cons name names ih =>
    have hnext : t.next here name = .ok (Path.enter here name) :=
      next_eq_ok_iff.mpr ⟨hdir, hfits name List.mem_cons_self, rfl⟩
    have hfits' : ∀ name ∈ names, byteLength name ≤ nameLimit := fun n hn =>
      hfits n (List.mem_cons_of_mem name hn)
    have hway' : ∀ ns, ns <+: names → ∀ content,
        t.entry? (Path.along (Path.enter here name) ns) ≠ some (.file content) := fun ns hns =>
      hway (name :: ns) (List.cons_prefix_cons.mpr ⟨rfl, hns⟩)
    rw [makeDirectories_cons hnext, Path.along_cons]
    cases hs : t.entry? (Path.enter here name) with
    | some e =>
      cases e with
      | directory => exact ih (isDirectory_iff.mpr hs) hfits' hway'
      | file content => exact absurd hs (hway' [] List.nil_prefix content)
    | none =>
      have hne := ne_nil_of_not_directory (not_directory_of_none hs)
      apply ih _ hfits'
      · intro ns hns content
        rw [entry?_put hne]
        split
        · simp
        · exact hway' ns hns content
      · rw [isDirectory_iff, entry?_put hne, if_pos rfl]

/-- What writing a file comes to: directories are made, and the file is put at its place unless
something is in the way. -/
inductive Writes (t : FileTree) (path : Text) (content : Option Text) :
    Except PathFault Unit × FileTree → Prop
  | fails {u : FileTree} {fault : PathFault} : Grows t u → Writes t path content (.error fault, u)
  | writes {u : FileTree} {parent : List Text} {names : List Text} {name : Text} :
      Grows t u → FileTree.names path = .ok (names ++ [name]) →
      t.makeDirectories [] names = (.ok parent, u) →
      u.next parent name = .ok (Path.place path) → u.isDirectory (Path.place path) = false →
      Writes t path content (.ok (), u.put (Path.place path) (.file content))

theorem eq_splitOn_of_names (h : FileTree.names path = .ok names) : names = path.splitOn '/' := by
  rw [FileTree.names] at h
  split at h
  · cases h
  · split at h
    · cases h
    · exact (Except.ok.inj h).symm

theorem writes_write (t : FileTree) (path : Text) (content : Option Text) :
    Writes t path content (t.write path content) := by
  rw [write]
  cases hnames : FileTree.names path with
  | error fault => exact .fails (.refl t)
  | ok ns =>
    obtain rfl := eq_splitOn_of_names hnames
    have hne : path.splitOn '/' ≠ [] := List.splitOn_ne_nil _ _
    have hlast := List.dropLast_append_getLast hne
    have hgrows := grows_makeDirectories t [] (path.splitOn '/').dropLast
    simp only
    cases hmake : t.makeDirectories [] (path.splitOn '/').dropLast with
    | mk result u =>
      rw [hmake] at hgrows
      cases result with
      | error fault => exact .fails hgrows
      | ok parent =>
        rw [List.getLastD_eq_getLast?, List.getLast?_eq_some_getLast hne, Option.getD_some]
        simp only
        cases hnext : u.next parent ((path.splitOn '/').getLast hne) with
        | error fault => exact .fails hgrows
        | ok place =>
          obtain rfl : place = Path.place path := by
            rw [(next_eq_ok_iff.mp hnext).2.2, eq_along_of_walk (walk_makeDirectories hmake).1,
              Path.place]
            conv_rhs => rw [← hlast, Path.along_append]
            rfl
          simp only
          split
          · exact .fails hgrows
          · rename_i hfree
            exact .writes hgrows (hnames.trans (congrArg _ hlast.symm)) hmake hnext
              (by simpa using hfree)

theorem read_eq_ok_iff : t.read path = .ok content ↔
    ∃ names, FileTree.names path = .ok names ∧ t.walk [] names = .ok (Path.place path) ∧
      t.entry? (Path.place path) = some (.file content) := by
  rw [read]
  cases hnames : FileTree.names path with
  | error fault => simp [bind, Except.bind]
  | ok ns =>
    cases hwalk : t.walk [] ns with
    | error fault => simp [hwalk, bind, Except.bind]
    | ok place =>
      obtain rfl : place = Path.place path := by
        rw [eq_along_of_walk hwalk, eq_splitOn_of_names hnames, Path.place]
      rcases hs : t.entry? (Path.place path) with _ | _ | found <;>
        simp [hwalk, hs, bind, Except.bind, pure, Except.pure, throw, throwThe, MonadExceptOf.throw]

theorem keeps_write (t : FileTree) (path : Text) (content : Option Text) :
    Keeps t (t.write path content).2 := by
  have hwrites := writes_write t path content
  generalize t.write path content = result at hwrites
  cases hwrites with
  | fails hgrows => exact hgrows.keeps
  | writes hgrows _ _ _ hfree => exact hgrows.keeps.trans (keeps_put hfree)

theorem entry?_write_of_ne (hne : place ≠ Path.place path) (hs : t.entry? place = some e) :
    FileTree.entry? (t.write path content).2 place = some e := by
  have hwrites := writes_write t path content
  generalize t.write path content = result at hwrites
  cases hwrites with
  | fails hgrows => exact hgrows.stands hs
  | writes hgrows _ _ _ hfree =>
    rw [entry?_put (ne_nil_of_not_directory hfree), if_neg hne]
    exact hgrows.stands hs

theorem read_write_self (h : (t.write path content).1 = .ok ()) :
    (t.write path content).2.read path = .ok content := by
  have hwrites := writes_write t path content
  generalize t.write path content = result at hwrites h
  cases hwrites with
  | fails _ => cases h
  | @writes u parent names name _ hnames hmake hnext hfree =>
    have hkeeps : u.Keeps (u.put (Path.place path) (.file content)) := keeps_put hfree
    have hentry : FileTree.entry? (u.put (Path.place path) (.file content)) (Path.place path) =
        some (.file content) := by rw [entry?_put (ne_nil_of_not_directory hfree), if_pos rfl]
    have hwalk := hkeeps.walk (walk_makeDirectories hmake).1
    have hend := walk_concat_eq_ok_iff.mpr ⟨parent, hwalk, hkeeps.next hnext, by rw [hentry]; rfl⟩
    exact read_eq_ok_iff.mpr ⟨_, hnames, hend, hentry⟩

/-- What is read from a path stays when a file is written to another place. -/
theorem read_write_of_ne (hne : Path.place other ≠ Path.place path)
    (h : t.read other = .ok content) {new : Option Text} :
    (t.write path new).2.read other = .ok content := by
  obtain ⟨names, hnames, hwalk, hentry⟩ := read_eq_ok_iff.mp h
  exact read_eq_ok_iff.mpr ⟨names, hnames, (keeps_write t path new).walk hwalk,
    entry?_write_of_ne hne hentry⟩

theorem write_eq_ok {name : Text} {parent : List Text}
    (hnames : FileTree.names path = .ok (names ++ [name]))
    (hmake : t.makeDirectories [] names = (.ok parent, u))
    (hnext : u.next parent name = .ok place) (hfree : u.isDirectory place = false) :
    (t.write path content).1 = .ok () := by
  rw [write, hnames]
  simp [hmake, hnext, hfree]

theorem write_of_read (h : t.read path = .ok content) (new : Option Text) :
    (t.write path new).1 = .ok () := by
  obtain ⟨ns, hnames, hwalk, hentry⟩ := read_eq_ok_iff.mp h
  have hne : ns ≠ [] := eq_splitOn_of_names hnames ▸ List.splitOn_ne_nil _ _
  obtain ⟨front, name, rfl⟩ : ∃ front name, ns = front ++ [name] :=
    ⟨_, _, (List.dropLast_append_getLast hne).symm⟩
  obtain ⟨parent, hfront, hnext, -⟩ := walk_concat_eq_ok_iff.mp hwalk
  have hdir : t.isDirectory parent = true := (next_eq_ok_iff.mp hnext).1
  have hfree : t.isDirectory (Path.place path) = false := by simp [isDirectory, hentry]
  exact write_eq_ok hnames (makeDirectories_of_walk hfront hdir) hnext hfree

/-- Whether a file can be written at the end of a path: its names are as long as names may be, no
file stands on the way to the end, no directory at the end, and the end is not on the way. -/
structure Admits (t : FileTree) (path : Text) : Prop where
  legal : FileTree.names path = .ok (path.splitOn '/')
  fits : ∀ name ∈ path.splitOn '/', byteLength name ≤ nameLimit
  way : ∀ ns, ns <+: (path.splitOn '/').dropLast → ∀ content,
    t.entry? (Path.along [] ns) ≠ some (.file content)
  last : ∀ ns, ns <+: (path.splitOn '/').dropLast → Path.along [] ns ≠ Path.place path
  free : t.isDirectory (Path.place path) = false

/-- A path that goes nowhere twice can be written where there is nothing yet. -/
theorem admits_empty (legal : FileTree.names path = .ok (path.splitOn '/'))
    (fits : ∀ name ∈ path.splitOn '/', byteLength name ≤ nameLimit)
    (last : ∀ ns ∈ (path.splitOn '/').dropLast.inits, Path.along [] ns ≠ Path.place path) :
    empty.Admits path := by
  have hentry : ∀ place, empty.entry? place = if place.isEmpty then some .directory else none :=
    fun _ => rfl
  have hlast : ∀ ns, ns <+: (path.splitOn '/').dropLast → Path.along [] ns ≠ Path.place path :=
    fun ns hns => last ns ((List.mem_inits _ _).mpr hns)
  have hne : Path.place path ≠ [] := (hlast [] List.nil_prefix).symm
  constructor
  case legal => exact legal
  case fits => exact fits
  case last => exact hlast
  case way =>
    intro ns _ content
    rw [hentry]
    split <;> simp
  case free =>
    rw [isDirectory, hentry, if_neg (by simpa using hne)]
    rfl

theorem Admits.write (h : t.Admits path) (content : Option Text) :
    (t.write path content).1 = .ok () := by
  have hne : path.splitOn '/' ≠ [] := List.splitOn_ne_nil _ _
  have hnames := List.dropLast_append_getLast hne
  obtain ⟨u, hmake⟩ := exists_makeDirectories (isDirectory_nil t)
    (fun name hname => h.fits name (List.dropLast_subset _ hname)) h.way
  have hparent := (walk_makeDirectories hmake).2
  have hentry : u.entry? (Path.place path) = t.entry? (Path.place path) := by
    simpa only [hmake] using entry?_makeDirectories (t := t) h.last
  have hplace : Path.place path =
      Path.enter (Path.along [] (path.splitOn '/').dropLast) ((path.splitOn '/').getLast hne) := by
    rw [Path.place]
    conv_lhs => rw [← hnames, Path.along_append]
    rfl
  have hnext : u.next (Path.along [] (path.splitOn '/').dropLast) ((path.splitOn '/').getLast hne) =
      .ok (Path.place path) :=
    next_eq_ok_iff.mpr ⟨hparent, h.fits _ (List.getLast_mem hne), hplace⟩
  have hfree : u.isDirectory (Path.place path) = false := by
    rw [isDirectory, hentry]
    exact h.free
  exact write_eq_ok (by rw [h.legal, hnames]) hmake hnext hfree

end FileTree

end Mediation
