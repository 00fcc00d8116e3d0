import Mathlib.Data.Set.Finite.Basic
import Mediation.Proofs.Run.Ending
import Mediation.Source.Catalog

/-! # Finite sources

A source that tells finitely many descriptors and lists finitely many versions gives a
resolution its terms: what may be chosen, how many children a node has, and which
coordinates a trail may hold. A catalog is such a source.
-/

namespace Mediation

namespace Constraint

def isConcrete (c : Constraint) : Bool := c.recommended.all (!isOpenVersion ·)

variable {best : Option Version} {v w : Version} {vs : List Version}

theorem mem_of_foldl_better (h : vs.foldl better best = some w) : best = some w ∨ w ∈ vs := by
  induction vs generalizing best with
  | nil => exact .inl h
  | cons v vs ih =>
    rcases ih h with hb | hm
    · have hv : better best v = some v ∨ better best v = best := by
        unfold better
        split
        · exact .inl rfl
        · split
          · exact .inl rfl
          · exact .inr rfl
      rcases hv with hv | hv <;> rw [hv] at hb
      · exact .inr (Option.some.inj hb ▸ List.mem_cons_self ..)
      · exact .inl hb
    · exact .inr (List.mem_cons_of_mem _ hm)

theorem of_select_eq_ok {c : Constraint} (h : c.select vs = .ok w) :
    w ∈ vs ∧ c.contains w = true := by
  unfold select at h
  split at h
  · rename_i v hv
    cases h
    exact List.mem_filter.mp ((mem_of_foldl_better hv).resolve_left nofun)
  · cases h

end Constraint

theorem Table.mem_entries_of_get? {κ ν : Type} [DecidableEq κ] {t : Table κ ν} {k : κ} {v : ν}
    (h : t.get? k = some v) : (k, v) ∈ t.entries := by
  unfold get? at h
  generalize t.entries = es at h
  induction es with
  | nil => cases h
  | cons e es ih =>
    rw [entryValue] at h
    split at h
    · rename_i he
      cases h
      exact he ▸ List.mem_cons_self ..
    · exact List.mem_cons_of_mem _ (ih h)

namespace Descriptor

/-- All constraints of a descriptor: those of its dependencies, and those that it pins. -/
def constraints (d : Descriptor) : List Constraint :=
  d.dependencies.map (·.constraint) ++ d.management.entries.filterMap (·.2.version)

theorem mem_constraints_of_dependency {d : Descriptor} {e : Dependency}
    (h : e ∈ d.dependencies) : e.constraint ∈ d.constraints :=
  List.mem_append_left _ (List.mem_map_of_mem (f := (·.constraint)) h)

theorem mem_constraints_of_pin {d : Descriptor} {k : Key} {pin : Pin} {c : Constraint}
    (h : d.management.get? k = some pin) (hc : pin.version = some c) : c ∈ d.constraints :=
  List.mem_append_right _ (List.mem_filterMap.mpr ⟨(k, pin), Table.mem_entries_of_get? h, hc⟩)

end Descriptor

def Request.descriptor (q : Request) : Descriptor := ⟨q.dependencies, q.management⟩

namespace Source

variable {σ : Type} {src : Source σ} {st : σ}

/-- Whether a source tells finitely many descriptors and lists finitely many versions. -/
structure IsFinite (src : Source σ) (st : σ) : Prop where
  described : {d | ∃ a v, src.Describes st a v d}.Finite
  listed : {v | ∃ a, src.Lists st a v}.Finite

end Source

/-- All that may be told in a resolution: the descriptors, with that of the root, and the
versions that are listed. -/
structure Inventory where
  descriptors : List Descriptor
  versions : List Version

namespace Inventory

variable {σ : Type} {inv : Inventory} {src : Source σ} {st : σ} {d : Descriptor} {c : Constraint}
  {k : Key}

/-- Whether an inventory holds all that a source tells, and the descriptor of the root. -/
structure Holds (inv : Inventory) (src : Source σ) (st : σ) (root : Descriptor) : Prop where
  root : root ∈ inv.descriptors
  told : ∀ {a v d}, src.Describes st a v d → d ∈ inv.descriptors
  listed : ∀ {a v}, src.Lists st a v → v ∈ inv.versions

theorem exists_of_isFinite (h : src.IsFinite st) (root : Descriptor) :
    ∃ inv : Inventory, inv.Holds src st root ∧
      ∀ d ∈ inv.descriptors, d = root ∨ ∃ a v, src.Describes st a v d := by
  refine ⟨⟨root :: h.described.toFinset.toList, h.listed.toFinset.toList⟩,
    ⟨List.mem_cons_self .., fun hd => List.mem_cons_of_mem _ ?_, fun hv => ?_⟩, fun d hd => ?_⟩
  · exact Finset.mem_toList.mpr (h.described.mem_toFinset.mpr ⟨_, _, hd⟩)
  · exact Finset.mem_toList.mpr (h.listed.mem_toFinset.mpr ⟨_, hv⟩)
  · exact (List.mem_cons.mp hd).imp_right fun hm =>
      h.described.mem_toFinset.mp (Finset.mem_toList.mp hm)

def known (inv : Inventory) : List Version :=
  inv.versions ++ inv.descriptors.flatMap fun d => d.constraints.filterMap (·.recommended)

def width (inv : Inventory) : ℕ := (inv.descriptors.flatMap (·.dependencies)).length

def coordinates (inv : Inventory) : List Coordinate :=
  inv.descriptors.flatMap fun d => d.dependencies.map (·.coordinate)

def Pins (inv : Inventory) (k : Key) (c : Constraint) : Prop :=
  ∃ d ∈ inv.descriptors, ∃ pin, d.management.get? k = some pin ∧ pin.version = some c

def tariff (inv : Inventory) (fits : Site → Prop) (soft : Prop) (rank : Site → ℕ) : Tariff :=
  ⟨inv.known, inv.width, inv.Pins, fits, soft, rank⟩

def IsConcrete (inv : Inventory) : Prop :=
  ∀ d ∈ inv.descriptors, ∀ c ∈ d.constraints, c.isConcrete = true

variable {fits : Site → Prop} {soft : Prop} {rank : Site → ℕ}

theorem length_le_width (h : d ∈ inv.descriptors) : d.dependencies.length ≤ inv.width :=
  (List.sublist_flatten_of_mem (List.mem_map_of_mem (f := (·.dependencies)) h)).length_le

theorem knows (hc : inv.IsConcrete) (hd : d ∈ inv.descriptors) (h : c ∈ d.constraints) :
    (inv.tariff fits soft rank).Knows c := by
  intro v hv
  refine ⟨List.mem_append_right _ (List.mem_flatMap.mpr ⟨d, hd, ?_⟩), ?_⟩
  · exact List.mem_filterMap.mpr ⟨c, h, hv⟩
  · have ho := hc d hd c h
    rw [Constraint.isConcrete, hv] at ho
    simpa using ho

theorem exists_of_brings {e : Dependency} {x : Child} (hd : d ∈ inv.descriptors)
    (he : e ∈ d.dependencies) (h : (inv.tariff fits soft rank).Brings e x) :
    ∃ d ∈ inv.descriptors, x.constraint ∈ d.constraints := by
  rcases h.2 with hx | ⟨f, hf, pin, hp, hv⟩
  · exact ⟨d, hd, hx ▸ Descriptor.mem_constraints_of_dependency he⟩
  · exact ⟨f, hf, Descriptor.mem_constraints_of_pin hp hv⟩

section Resolver

variable {resolver : Resolver σ} {q : Request}
  (h : inv.Holds resolver.source st q.descriptor)
include h

theorem governs : (inv.tariff fits soft rank).Governs (resolver.session q).rules
    (Run.told (resolver.session q) st) where
  pins hk hv := ⟨_, h.root, _, hk, hv⟩
  offers {a c v} ho hc := by
    cases ho with
    | recommended hr _ =>
      refine ⟨(hc v hr).1, fun r hr' => ?_, fun hn => ?_⟩
      · exact Option.some.inj (hr.symm.trans hr')
      · rw [hr] at hn
        cases hn
    | concrete hr hopen _ _ =>
      rw [(hc _ hr).2] at hopen
      cases hopen
    | listed hr hl hv hs =>
      obtain ⟨hm, hcon⟩ := Constraint.of_select_eq_ok hs
      refine ⟨List.mem_append_left _ (h.listed ⟨_, hl, _, hv, hm⟩), fun r hr' => ?_, fun _ => hcon⟩
      rw [hr] at hr'
      cases hr'

omit h in
theorem allows {site : Site} (hc : inv.IsConcrete) (hd : d ∈ inv.descriptors)
    (hs : soft → ∀ d ∈ inv.descriptors, ∀ c ∈ d.constraints, c.isSoft = true)
    (hchild : ∀ e ∈ d.dependencies, ∀ x, (inv.tariff fits soft rank).Brings e x →
      x.coordinate ∉ site.trail → ∀ i p, fits (site.below i p x) ∧
        rank (site.below i p x) < rank site) :
    (inv.tariff fits soft rank).Allows site d where
  length := length_le_width hd
  pins hk hv := ⟨d, hd, _, hk, hv⟩
  child e he x hx hn i p := by
    obtain ⟨f, hf, hm⟩ := exists_of_brings hd he hx
    exact ⟨knows hc hf hm, fun hp => hs hp f hf _ hm, hchild e he x hx hn i p⟩

end Resolver

end Inventory

namespace Catalog

variable {s t : Catalog} {latency : ℕ}

def inventory (s : Catalog) (root : Descriptor) : Inventory :=
  ⟨root :: s.releases.entries.flatMap (·.2.map (·.descriptor)),
    s.releases.entries.flatMap (·.2.map (·.version))⟩

theorem releases_of_later (h : (source latency).Later s t) : t.releases = s.releases := by
  induction h with
  | refl => rfl
  | tail _ ht ih =>
    rw [← ih]
    cases ht <;> rfl

theorem exists_entry_of_mem {k : Key} {r : Release} (h : r ∈ s.releasesOf k) :
    ∃ e ∈ s.releases.entries, r ∈ e.2 := by
  unfold releasesOf at h
  cases hg : s.releases.get? k with
  | none =>
    rw [hg] at h
    cases h
  | some rs =>
    rw [hg] at h
    exact ⟨(k, rs), Table.mem_entries_of_get? hg, h⟩

theorem exists_release_of_descriptor {a : Artifact} {d : Descriptor}
    (h : s.descriptor a = .ok d) : ∃ v r, a.selected = some v ∧ r ∈ s.releasesOf a.key ∧
      r.version.same v = true ∧ r.descriptor = d := by
  unfold descriptor at h
  cases hc : s.check a.coordinate with
  | error e =>
    rw [hc] at h
    cases h
  | ok u =>
    simp only [hc, bind, Except.bind] at h
    split at h
    · rename_i r hr
      cases h
      obtain ⟨v, hv, hr⟩ := Option.bind_eq_some_iff.mp hr
      have hs : r.version.same v = true :=
        List.find?_some (p := fun r : Release => r.version.same v) hr
      exact ⟨v, r, hv, List.mem_of_find?_eq_some hr, hs, rfl⟩
    · cases h

theorem exists_release_of_listing {c : Coordinate} {vs : List Version} {v : Version}
    (h : s.listing c = .ok vs) (hv : v ∈ vs) : ∃ r ∈ s.releasesOf c.key, r.version = v := by
  unfold listing at h
  cases hc : s.check c with
  | error e =>
    rw [hc] at h
    cases h
  | ok u =>
    rw [hc] at h
    cases h
    exact List.mem_map.mp hv

/-- What a catalog tells is the descriptor of a release, in whatever state it came to be. -/
theorem exists_release_of_describes {c : Coordinate} {v : Option Version} {d : Descriptor}
    (h : (source latency).Describes s c v d) : ∃ w r, v = some w ∧ r ∈ s.releasesOf c.key ∧
      r.version.same w = true ∧ r.descriptor = d := by
  obtain ⟨t, hl, a, rfl, rfl, h⟩ := h
  obtain ⟨w, r, hw, hr, hs, hd⟩ := exists_release_of_descriptor h
  unfold releasesOf at hr ⊢
  rw [releases_of_later hl] at hr
  exact ⟨w, r, hw, hr, hs, hd⟩

theorem inventory_holds (s : Catalog) (root : Descriptor) :
    (s.inventory root).Holds (source latency) s root where
  root := List.mem_cons_self ..
  told := by
    intro c v d h
    obtain ⟨-, r, -, hr, -, rfl⟩ := exists_release_of_describes h
    obtain ⟨e, he, hr⟩ := exists_entry_of_mem hr
    exact List.mem_cons_of_mem _ (List.mem_flatMap.mpr ⟨e, he, List.mem_map_of_mem hr⟩)
  listed := by
    rintro c v ⟨t, hl, vs, h, hv⟩
    obtain ⟨r, hr, rfl⟩ := exists_release_of_listing h hv
    obtain ⟨e, he, hr⟩ := exists_entry_of_mem hr
    rw [releases_of_later hl] at he
    exact List.mem_flatMap.mpr ⟨e, he, List.mem_map_of_mem (f := (·.version)) hr⟩

theorem isFinite (s : Catalog) : (source latency).IsFinite s := by
  have h : (s.inventory ⟨[], .empty⟩).Holds (source latency) s ⟨[], .empty⟩ := s.inventory_holds _
  exact {
    described := by
      refine (s.inventory ⟨[], .empty⟩).descriptors.finite_toSet.subset ?_
      rintro d ⟨a, v, hd⟩
      exact h.told hd
    listed := by
      refine (s.inventory ⟨[], .empty⟩).versions.finite_toSet.subset ?_
      rintro v ⟨a, hv⟩
      exact h.listed hv }

end Catalog

end Mediation
