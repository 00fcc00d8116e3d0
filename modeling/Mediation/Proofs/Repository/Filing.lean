import Mediation.Proofs.Metadata.Document
import Mediation.Proofs.Metadata.Layout
import Mediation.Proofs.Repository.Writing
import Mediation.Repository.Disk

/-! # Envelopes in files

A directory answers with the envelope that was last written to the place of a key. Keys whose parts
are plain names have different places unless they have the same parts. So a directory keeps the
envelopes of two keys apart, but for a version and the artifact that is named like it.
-/

namespace Mediation

namespace Path

variable {part : Text} {parts : List Text}

def IsPlain (part : Text) : Prop := IsSimple part ∧ part ≠ ['.'] ∧ part ≠ ['.', '.']

instance : DecidablePred IsPlain := fun part =>
  inferInstanceAs (Decidable (IsSimple part ∧ part ≠ ['.'] ∧ part ≠ ['.', '.']))

theorem IsPlain.lead (h : IsPlain part) (place : List Text) :
    lead place part = place ++ [part] := by
  obtain ⟨hsimple, hdot, hdots⟩ := h
  have habsolute : isAbsolute part = false := hsimple.isAbsolute
  have hone : part.splitOn '/' = [part] := List.splitOn_eq_singleton hsimple.2
  simp [Path.lead, habsolute, hone, enter, hsimple.1, hdot, hdots]

theorem foldl_lead (h : ∀ part ∈ parts, IsPlain part) (place : List Text) :
    parts.foldl lead place = place ++ parts := by
  induction parts generalizing place with
  | nil => exact (List.append_nil place).symm
  | cons part parts ih =>
    have hpart := (h part List.mem_cons_self).lead place
    rw [List.foldl_cons, hpart, ih fun q hq => h q (List.mem_cons_of_mem part hq)]
    rw [List.append_assoc, List.singleton_append]

end Path

namespace Disk

variable {d : Disk} {r : Repository} {k : MetadataKey} {e m : Envelope} {path other root : Text}

theorem envelopePath_inDirectory (root : Text) (k : MetadataKey) :
    envelopePath k (.inDirectory root) = .ok (Path.push root k.relativePath) := rfl

theorem store_eq (hpath : envelopePath e.key r = .ok path) : d.store r e =
    ((d.tree.write path (some e.document)).1.map (fun _ => path) |>.mapError fun fault =>
      .unavailable e.key r.id fault.message,
      { d with tree := (d.tree.write path (some e.document)).2 }) := by
  rw [store, hpath]
  simp only
  generalize d.tree.write path (some e.document) = result
  obtain ⟨outcome, tree⟩ := result
  cases outcome <;> rfl

theorem store_eq_ok (hpath : envelopePath e.key r = .ok path)
    (hwrite : (d.tree.write path (some e.document)).1 = .ok ()) : (d.store r e).1 = .ok path := by
  rw [store_eq hpath, hwrite]
  rfl

theorem store_tree (hpath : envelopePath e.key r = .ok path) :
    (d.store r e).2.tree = (d.tree.write path (some e.document)).2 := by
  rw [store_eq hpath]

theorem answer_of_read (hpath : envelopePath k r = .ok path)
    (hread : d.tree.read path = .ok (some m.document)) : d.answer k r = .ok (some m) := by
  rw [answer, hpath]
  simp [bind, Except.bind, pure, Except.pure, hread, m.ofDocument?_document]

theorem answer_store_self (hpath : envelopePath e.key r = .ok path)
    (hwrite : (d.tree.write path (some e.document)).1 = .ok ()) :
    (d.store r e).2.answer e.key r = .ok (some e) := by
  apply answer_of_read hpath
  rw [store_tree hpath]
  exact FileTree.read_write_self hwrite

/-- What is read from a file stays when an envelope is stored in another place. -/
theorem read_store_of_ne (hpath : envelopePath e.key r = .ok path)
    (hne : Path.place other ≠ Path.place path) {content : Option Text}
    (hread : d.tree.read other = .ok content) :
    (d.store r e).2.tree.read other = .ok content := by
  rw [store_tree hpath]
  exact FileTree.read_write_of_ne hne hread

theorem place_eq_iff {l : MetadataKey} (hk : ∀ part ∈ k.parts, Path.IsPlain part)
    (hl : ∀ part ∈ l.parts, Path.IsPlain part) :
    Path.place (Path.push root k.relativePath) = Path.place (Path.push root l.relativePath) ↔
      k.parts = l.parts := by
  rw [k.place_relativePath, l.place_relativePath, Path.foldl_lead hk, Path.foldl_lead hl,
    List.append_cancel_left_eq]

/-- An envelope that is stored before one of another key is answered for its own key, unless one of
the keys is that of a version and the other one that of the artifact which is named like it. -/
theorem answer_after_store_iff (d : Disk) (root : Text) (m₁ m₂ : Envelope)
    (h₁ : ∀ part ∈ m₁.key.parts, Path.IsPlain part) (h₂ : ∀ part ∈ m₂.key.parts, Path.IsPlain part)
    (hne : m₁.key ≠ m₂.key) (hadmits : d.tree.Admits (Path.push root m₁.key.relativePath)) :
    (d.store (.inDirectory root) m₁).1 = .ok (Path.push root m₁.key.relativePath) ∧
      (((d.store (.inDirectory root) m₁).2.store (.inDirectory root) m₂).2.answer m₁.key
          (.inDirectory root) = .ok (some m₁) ↔
        ¬ m₁.key.Nests m₂.key ∧ ¬ m₂.key.Nests m₁.key) := by
  have hpath₁ := envelopePath_inDirectory root m₁.key
  have hpath₂ := envelopePath_inDirectory root m₂.key
  have hwrite := hadmits.write (some m₁.document)
  have hread : (d.store (.inDirectory root) m₁).2.tree.read (Path.push root m₁.key.relativePath) =
      .ok (some m₁.document) := by
    rw [store_tree hpath₁]
    exact FileTree.read_write_self hwrite
  constructor
  · exact store_eq_ok hpath₁ hwrite
  constructor
  · intro hanswer
    rw [← not_or]
    intro hnests
    have hparts : m₁.key.parts = m₂.key.parts := MetadataKey.parts_eq_iff.mpr (.inr hnests)
    -- the second envelope takes the file of the first one
    have hsame : m₁.key.relativePath = m₂.key.relativePath := by
      rw [MetadataKey.relativePath, hparts, MetadataKey.relativePath]
    have htaken : ((d.store (.inDirectory root) m₁).2.store (.inDirectory root) m₂).2.answer m₁.key
        (.inDirectory root) = .ok (some m₂) := by
      apply answer_of_read hpath₁
      rw [store_tree hpath₂, hsame]
      exact FileTree.read_write_self (FileTree.write_of_read (hsame ▸ hread) _)
    rw [htaken] at hanswer
    exact hne (congrArg Envelope.key (Option.some.inj (Except.ok.inj hanswer))).symm
  · rintro ⟨hnests₁, hnests₂⟩
    have hplace : Path.place (Path.push root m₁.key.relativePath) ≠
        Path.place (Path.push root m₂.key.relativePath) := by
      rw [Ne, place_eq_iff h₁ h₂, MetadataKey.parts_eq_iff]
      simp [hne, hnests₁, hnests₂]
    exact answer_of_read hpath₁ (read_store_of_ne hpath₂ hplace hread)

def gadget (version : Option Text) : Envelope :=
  ⟨"org.acme", "gadget", version, { Versioning.empty with latest := some "1.1-SNAPSHOT" }⟩

theorem answer_after_store_of_version :
    (((Disk.mk .empty true).store (.inDirectory "/m2") (gadget none)).2.store (.inDirectory "/m2")
      (gadget (some "1.1-SNAPSHOT"))).2.answer ⟨"org.acme", "gadget", none⟩ (.inDirectory "/m2") =
        .ok (some (gadget none)) := by
  have hadmits : FileTree.empty.Admits (Path.push "/m2" (gadget none).key.relativePath) := by
    apply FileTree.admits_empty
    · decide +kernel
    · decide +kernel
    · decide +kernel
  have hapart := answer_after_store_iff ⟨.empty, true⟩ "/m2" (gadget none)
    (gadget (some "1.1-SNAPSHOT")) (by decide +kernel) (by decide +kernel) (by decide) hadmits
  apply hapart.2.mpr
  constructor
  · intro h
    cases h.version
  · intro h
    exact absurd h.group (by decide)

end Disk

end Mediation
