import Mathlib.Data.Set.Card
import Mediation.Proofs.Resolution.Nearest

/-! # Chases

A policy about versions lets a newcomer displace a winner at any depth. What was below that
winner is lost, and so may be the reason why the newcomer is there at all: then the one chases
the other. If no edition leads back to one that supersedes it, each displacement is a step
ahead, and a resolution among recommendations comes to an end.
-/

namespace Mediation

/-- A coordinate in a version; the root of a request is `none`. -/
abbrev Edition := Option (Coordinate × Version)

def Site.edition (σ : Site) : Edition := σ.constraint.recommended.map (σ.coordinate, ·)

namespace Policy

def isBetter (p : Policy) (v w : Version) : Bool :=
  match p with
  | nearest => false
  | newest => v.compare w == .gt
  | oldest => v.compare w == .lt

def supersedes (p : Policy) : Edition → Edition → Bool
  | some (a, v), some (b, w) => a.key == b.key && p.isBetter v w
  | _, _ => false

theorem isBetter_of_prefers {p : Policy} {m n : Node} {v w : Version} (hp : p ≠ nearest)
    (hm : m.version = some v) (hn : n.version = some w) (h : p.prefers m n = true) :
    p.isBetter v w = true := by
  cases p with
  | nearest => exact absurd rfl hp
  | newest => simpa [prefers, hm, hn, compareVersions, isBetter] using h
  | oldest => simpa [prefers, hm, hn, compareVersions, isBetter] using h

end Policy

namespace Inventory

/-- The editions that a dependency may bring, as it is declared or pinned. -/
def readings (inv : Inventory) (e : Dependency) : List Edition :=
  (e.constraint :: inv.descriptors.filterMap fun d =>
    (d.management.get? e.coordinate.key).bind (·.version)).filterMap fun c =>
      c.recommended.map fun v => some (e.coordinate, v)

def editions (inv : Inventory) : List Edition :=
  none :: inv.descriptors.flatMap fun d => d.dependencies.flatMap inv.readings

end Inventory

namespace Resolver

open Relation Collection

variable {σ : Type} (resolver : Resolver σ) (q : Request) (st : σ) (p : Policy)

def Declares (d : Descriptor) : Prop :=
  d = q.descriptor ∨ ∃ a v, resolver.source.Describes st a v d

inductive Tells : Edition → Descriptor → Prop
  | root : Tells none q.descriptor
  | release {a : Coordinate} {v : Version} {d : Descriptor}
      (h : resolver.source.Describes st a (some v) d) : Tells (some (a, v)) d

/-- Whether an edition brings another one as a dependency, as it is declared or pinned. -/
inductive Brings : Edition → Edition → Prop
  | intro {o : Edition} {d : Descriptor} {e : Dependency} {c : Constraint} {v : Version}
      (hd : resolver.Tells q st o d) (he : e ∈ d.dependencies)
      (hc : c = e.constraint ∨ ∃ f, resolver.Declares q st f ∧
        ∃ pin, f.management.get? e.coordinate.key = some pin ∧ pin.version = some c)
      (hv : c.recommended = some v) : Brings o (some (e.coordinate, v))

def Occurs (o : Edition) : Prop := ReflTransGen (resolver.Brings q st) none o

/-- Whether an edition is another one, or is brought by it and so on, along a trail that meets no
coordinate of a list. -/
def Below (cs : List Coordinate) : Edition → Edition → Prop :=
  ReflTransGen fun o o' => resolver.Brings q st o o' ∧ ∀ x ∈ o', x.1 ∉ cs

/-- Whether an edition, or one below it, supersedes another one that may occur. -/
def Ousts (cs : List Coordinate) (o o' : Edition) : Prop :=
  ∃ m, resolver.Below q st cs o m ∧ resolver.Occurs q st o' ∧ p.supersedes m o' = true

/-- Whether an edition ousts another one on trails that do not come back to it. -/
def Stirs (o o' : Edition) : Prop := resolver.Ousts q st p (o.map Prod.fst).toList o o'

/-- Whether some edition is ousted in the end by what it stirs itself. -/
def Chases : Prop := ∃ o, resolver.Occurs q st o ∧ TransGen (resolver.Stirs q st p) o o

/-- What is ousted from a place with a trail, and what is ousted then. -/
def wake (cs : List Coordinate) (o : Edition) : Set Edition :=
  {o' | ∃ u, resolver.Ousts q st p cs o u ∧ ReflTransGen (resolver.Stirs q st p) u o'}

variable {resolver q st p} {inv : Inventory} {cs ds : List Coordinate} {o o' u : Edition}

theorem Ousts.occurs (h : resolver.Ousts q st p cs o u) : resolver.Occurs q st u :=
  h.choose_spec.2.1

theorem Ousts.of_subset (h : resolver.Ousts q st p ds o u) (hs : ∀ c ∈ cs, c ∈ ds) :
    resolver.Ousts q st p cs o u := by
  obtain ⟨m, hm, hu⟩ := h
  refine ⟨m, ReflTransGen.mono (fun _ _ hb => ?_) _ _ hm, hu⟩
  exact ⟨hb.1, fun x hx hc => hb.2 x hx (hs _ hc)⟩

theorem Ousts.of_brings {c : Coordinate} {v : Version}
    (h : resolver.Ousts q st p (cs ++ [c]) (some (c, v)) u)
    (hb : resolver.Brings q st o (some (c, v))) (hc : c ∉ cs) : resolver.Ousts q st p cs o u := by
  obtain ⟨m, hm, hu⟩ := h.of_subset fun _ hd => List.mem_append_left _ hd
  refine ⟨m, .head ⟨hb, fun x hx => ?_⟩ hm, hu⟩
  cases hx
  exact hc

theorem wake_subset_of_brings {c : Coordinate} {v : Version}
    (hb : resolver.Brings q st o (some (c, v))) (hc : c ∉ cs) :
    resolver.wake q st p (cs ++ [c]) (some (c, v)) ⊆ resolver.wake q st p cs o :=
  fun _ ⟨u, hu, hr⟩ => ⟨u, hu.of_brings hb hc, hr⟩

theorem occurs_of_mem_wake (h : u ∈ resolver.wake q st p cs o) : resolver.Occurs q st u := by
  obtain ⟨w, hw, hr⟩ := h
  rcases hr.cases_tail with rfl | ⟨_, -, hs⟩
  · exact hw.occurs
  · exact hs.occurs

section Inventory

variable (h : inv.Holds resolver.source st q.descriptor)
include h

theorem mem_of_declares {d : Descriptor} (hd : resolver.Declares q st d) :
    d ∈ inv.descriptors := by
  rcases hd with rfl | ⟨a, v, hd⟩
  · exact h.root
  · exact h.told hd

theorem mem_of_tells {d : Descriptor} (hd : resolver.Tells q st o d) : d ∈ inv.descriptors := by
  cases hd with
  | root => exact h.root
  | release hd => exact h.told hd

theorem mem_readings_of_brings (hb : resolver.Brings q st o o') :
    ∃ d, resolver.Tells q st o d ∧ ∃ e ∈ d.dependencies, o' ∈ inv.readings e := by
  obtain @⟨d, e, c, v, hd, he, hc, hv⟩ := hb
  refine ⟨d, hd, e, he, List.mem_filterMap.mpr ⟨c, ?_, by rw [hv]; rfl⟩⟩
  rcases hc with rfl | ⟨g, hg, pin, hp, hc⟩
  · exact List.mem_cons_self ..
  · refine List.mem_cons_of_mem _ (List.mem_filterMap.mpr ⟨g, mem_of_declares h hg, ?_⟩)
    rw [hp, Option.bind_some, hc]

theorem mem_editions_of_occurs (ho : resolver.Occurs q st o) : o ∈ inv.editions := by
  rcases ho.cases_tail with rfl | ⟨o', -, hb⟩
  · exact List.mem_cons_self ..
  · obtain ⟨d, hd, e, he, hm⟩ := mem_readings_of_brings h hb
    refine List.mem_cons_of_mem _ (List.mem_flatMap.mpr ⟨d, mem_of_tells h hd, ?_⟩)
    exact List.mem_flatMap.mpr ⟨e, he, hm⟩

theorem finite_occurs : {o | resolver.Occurs q st o}.Finite :=
  (List.finite_toSet _).subset fun _ ho => mem_editions_of_occurs h ho

theorem finite_wake (cs : List Coordinate) (o : Edition) : (resolver.wake q st p cs o).Finite :=
  (finite_occurs h).subset fun _ hu => occurs_of_mem_wake hu

theorem ncard_wake_lt_of_supersedes {c : Coordinate} {v : Version}
    (hn : ¬ resolver.Chases q st p) (hi : resolver.Occurs q st (some (c, v)))
    (hs : p.supersedes o (some (c, v)) = true) (hc : c ∈ ds) :
    (resolver.wake q st p ds (some (c, v))).ncard < (resolver.wake q st p cs o).ncard := by
  have hstir {u} (hu : resolver.Ousts q st p ds (some (c, v)) u) :
      resolver.Stirs q st p (some (c, v)) u := by
    refine hu.of_subset fun d hd => ?_
    rw [List.mem_singleton.mp hd]
    exact hc
  refine Set.ncard_lt_ncard ⟨fun u hu => ?_, fun hback => ?_⟩ (finite_wake h _ _)
  · obtain ⟨w, hw, hr⟩ := hu
    exact ⟨_, ⟨o, .refl, hi, hs⟩, .head (hstir hw) hr⟩
  -- the superseded edition is in the wake of the other one, but not in its own
  · obtain ⟨w, hw, hr⟩ := hback ⟨_, ⟨o, .refl, hi, hs⟩, .refl⟩
    exact hn ⟨_, hi, .head' (hstir hw) hr⟩

end Inventory

theorem brings_of_tariff {fits : Site → Prop} {soft : Prop} {rank : Site → ℕ} {d : Descriptor}
    {e : Dependency} {x : Child} {v : Version}
    (honly : ∀ d ∈ inv.descriptors, resolver.Declares q st d) (hd : resolver.Tells q st o d)
    (he : e ∈ d.dependencies) (hx : (inv.tariff fits soft rank).Brings e x)
    (hv : x.constraint.recommended = some v) :
    resolver.Brings q st o (some (x.coordinate, v)) := by
  rw [hx.1]
  refine .intro hd he (hx.2.imp_right ?_) hv
  rintro ⟨f, hf, hp⟩
  exact ⟨f, honly f hf, hp⟩

structure IsStation (resolver : Resolver σ) (q : Request) (st : σ) (inv : Inventory)
    (site : Site) : Prop where
  onTrail : site.OnTrail (steps q inv)
  last : site.coordinate ∈ site.trail
  occurs : resolver.Occurs q st site.edition

/-- The terms for a policy about versions: a node has a rank by what it may set off, and then by
the room left on its trail. -/
noncomputable def chaseTariff (resolver : Resolver σ) (q : Request) (st : σ) (p : Policy)
    (inv : Inventory) : Tariff :=
  inv.tariff (resolver.IsStation q st inv) True fun site =>
    (resolver.wake q st p site.trail site.edition).ncard * (steps q inv).length +
      ((steps q inv).length - site.depth)

theorem edition_of_isTame {ev : Evidence} {n : Node} {v : Version}
    (h : n.IsTame (chaseTariff resolver q st p inv) ev) (hv : n.version = some v) :
    n.site.edition = some (n.artifact.coordinate, v) :=
  congrArg (Option.map (n.artifact.coordinate, ·)) ((h.plain trivial).version v hv)

section Chase

variable (h : inv.Holds resolver.source st q.descriptor)
include h

theorem chase_favours {s : Collection} {ev : Evidence} (hp : p ≠ .nearest)
    (ha : resolver.arbiter = p.arbiter) (hn : ¬ resolver.Chases q st p) (hs : s.Sound)
    (ht : s.Tame (chaseTariff resolver q st p inv) ev) :
    s.Favours (chaseTariff resolver q st p inv) (resolver.session q).rules := by
  rintro i x hr hlt hpx hvx he
  have hi : (s.node i).state = .included := isIncluded_iff.mp hr.included
  have hir := hs.ne_root_of_contender hr.mem
  have hti := ht.node i (hs.inPlay hir (.inr hi))
  have htx := ht.node x (hs.inPlay_of_pending hpx)
  obtain ⟨v, hv⟩ := Option.isSome_iff_exists.mp hvx
  obtain ⟨w, hw⟩ := Option.isSome_iff_exists.mp (hs.versioned i hir hi)
  have hpr := prefers_of_elect hs ha hlt
    (hs.lt_size_of_contender (Steady.pending_contender hs hpx)) he
  have hei := edition_of_isTame hti hw
  have hsup : p.supersedes (s.node x).site.edition (some ((s.node i).artifact.coordinate, w)) =
      true := by
    rw [edition_of_isTame htx hv, Policy.supersedes, Bool.and_eq_true]
    exact ⟨beq_iff_eq.mpr hr.key.symm, Policy.isBetter_of_prefers hp hv hw hpr⟩
  have hwake : (resolver.wake q st p (s.node i).site.trail
      (some ((s.node i).artifact.coordinate, w))).ncard <
        (resolver.wake q st p (s.node x).site.trail (s.node x).site.edition).ncard :=
    ncard_wake_lt_of_supersedes h hn (hei ▸ hti.fits.occurs) hsup hti.fits.last
  rw [← hei] at hwake
  calc (chaseTariff resolver q st p inv).rank (s.node i).site
      ≤ ((resolver.wake q st p (s.node i).site.trail (s.node i).site.edition).ncard + 1) *
          (steps q inv).length := by
        rw [Nat.succ_mul]
        exact Nat.add_le_add_left (Nat.sub_le _ _) _
    _ ≤ (resolver.wake q st p (s.node x).site.trail (s.node x).site.edition).ncard *
          (steps q inv).length := Nat.mul_le_mul_right _ hwake
    _ ≤ (chaseTariff resolver q st p inv).rank (s.node x).site := Nat.le_add_right _ _

variable (honly : ∀ d ∈ inv.descriptors, resolver.Declares q st d)
  (hc : ∀ d ∈ inv.descriptors, ∀ c ∈ d.constraints, c.isSoft = true ∧ c.isConcrete = true)
include honly hc

theorem chase_allows {d : Descriptor} {site : Site} (hd : resolver.Tells q st site.edition d)
    (hs : resolver.IsStation q st inv site) : (chaseTariff resolver q st p inv).Allows site d := by
  have hmem := mem_of_tells h hd
  refine Inventory.allows (fun d hd c hm => (hc d hd c hm).2) hmem
    (fun _ d hd c hm => (hc d hd c hm).1) fun e he x hx hn i j => ?_
  have hb := hs.onTrail.below (mem_steps_of_brings hmem he hx) hn i j
  obtain ⟨g, hg, hm⟩ := Inventory.exists_of_brings hmem he hx
  obtain ⟨v, hv⟩ : ∃ v, x.constraint.recommended = some v := by
    have hs := (hc g hg _ hm).1
    rw [Constraint.isSoft, Bool.and_eq_true] at hs
    exact Option.isSome_iff_exists.mp hs.1
  have hed : (site.below i j x).edition = some (x.coordinate, v) :=
    congrArg (Option.map (x.coordinate, ·)) hv
  have hbr : resolver.Brings q st site.edition (some (x.coordinate, v)) :=
    brings_of_tariff honly hd he hx hv
  refine ⟨⟨hb, List.mem_append_right _ (List.mem_singleton_self _), ?_⟩, ?_⟩
  · rw [hed]
    exact hs.occurs.tail hbr
  · have hwake := Nat.mul_le_mul_right (steps q inv).length
      (Set.ncard_le_ncard (wake_subset_of_brings (p := p) hbr hn) (finite_wake h _ _))
    have hlt : site.depth + 1 < (steps q inv).length := hb.depth_lt
    rw [← hed] at hwake
    change _ * _ + ((steps q inv).length - (site.depth + 1)) < _ * _ + _
    exact Nat.add_lt_add_of_le_of_lt hwake (by omega)

theorem chase_covers (hp : p ≠ .nearest) (ha : resolver.arbiter = p.arbiter)
    (hn : ¬ resolver.Chases q st p) :
    resolver.Covers q st (chaseTariff resolver q st p inv) where
  governs := inv.governs h
  favours := chase_favours h hp ha hn
  allows {s x d} ht hx hvx hd := by
    have hn := ht.node x hx
    obtain ⟨v, hv⟩ := Option.isSome_iff_exists.mp hvx
    refine chase_allows h honly hc ?_ hn.fits
    rw [edition_of_isTame hn hv]
    exact .release (hv ▸ hd)
  root := by
    refine chase_allows h honly hc .root ⟨⟨List.nodup_singleton _, fun c hm => ?_, rfl⟩,
      List.mem_singleton_self _, .refl⟩
    exact List.mem_singleton.mp hm ▸ List.mem_cons_self ..

end Chase

/-- Under a policy about versions a request to a finite source that recommends concrete versions
comes to an end, if no edition is ousted in the end by what it stirs itself. -/
theorem ends_of_not_chases (hp : p ≠ .nearest) (ha : resolver.arbiter = p.arbiter)
    (hf : resolver.source.IsFinite st)
    (hc : ∀ d, resolver.Declares q st d → ∀ c ∈ d.constraints,
      c.isSoft = true ∧ c.isConcrete = true)
    (hn : ¬ resolver.Chases q st p) : resolver.Ends q st := by
  obtain ⟨inv, hold, honly⟩ := Inventory.exists_of_isFinite hf q.descriptor
  exact (chase_covers hold honly (fun d hd => hc d (honly d hd)) hp ha hn).ends

section Catalog

variable {s : Catalog} {latency : ℕ} {config : Config} {arbiter : Arbiter} {f : Edition → ℕ}

/-- A height of editions that no dependency raises, and that is lower for what is superseded. -/
structure IsHeight (resolver : Resolver σ) (q : Request) (st : σ) (p : Policy)
    (f : Edition → ℕ) : Prop where
  brings : ∀ {o o'}, resolver.Occurs q st o → resolver.Brings q st o o' → f o' ≤ f o
  supersedes : ∀ {o o'}, resolver.Occurs q st o → resolver.Occurs q st o' →
    p.supersedes o o' = true → f o' < f o

theorem IsHeight.lt_of_stirs (h : resolver.IsHeight q st p f) (ho : resolver.Occurs q st o)
    (hs : resolver.Stirs q st p o u) : f u < f o := by
  obtain ⟨m, hm, hu, hsup⟩ := hs
  suffices hle : resolver.Occurs q st m ∧ f m ≤ f o from
    (h.supersedes hle.1 hu hsup).trans_le hle.2
  clear hsup
  induction hm with
  | refl => exact ⟨ho, le_rfl⟩
  | tail _ hb ih => exact ⟨ih.1.tail hb.1, (h.brings ih.1 hb.1).trans ih.2⟩

theorem IsHeight.not_chases (h : resolver.IsHeight q st p f) : ¬ resolver.Chases q st p := by
  rintro ⟨o, ho, hr⟩
  suffices hlt : ∀ {u}, TransGen (resolver.Stirs q st p) o u →
      resolver.Occurs q st u ∧ f u < f o from absurd (hlt hr).2 (lt_irrefl _)
  intro u hu
  induction hu with
  | single hs => exact ⟨hs.occurs, h.lt_of_stirs ho hs⟩
  | tail _ hs ih => exact ⟨hs.occurs, (h.lt_of_stirs ih.1 hs).trans ih.2⟩

/-- A height on the editions of a catalog can be checked on its releases. -/
theorem isHeight_of_catalog
    (hroot : ∀ e ∈ q.dependencies, ∀ o ∈ (s.inventory q.descriptor).readings e, f o ≤ f none)
    (hrelease : ∀ o ∈ (s.inventory q.descriptor).editions, ∀ x ∈ o, ∀ r ∈ s.releasesOf x.1.key,
      r.version.same x.2 = true → ∀ e ∈ r.descriptor.dependencies,
        ∀ o' ∈ (s.inventory q.descriptor).readings e, f o' ≤ f o)
    (hbetter : ∀ o ∈ (s.inventory q.descriptor).editions,
      ∀ o' ∈ (s.inventory q.descriptor).editions, p.supersedes o o' = true → f o' < f o) :
    (⟨Catalog.source latency, config, arbiter⟩ : Resolver Catalog).IsHeight q s p f := by
  have hold : (s.inventory q.descriptor).Holds
      (⟨Catalog.source latency, config, arbiter⟩ : Resolver Catalog).source s q.descriptor :=
    s.inventory_holds _
  exact {
    brings ho hb := by
      have hmem := mem_editions_of_occurs hold ho
      obtain ⟨d, hd, e, he, hm⟩ := mem_readings_of_brings hold hb
      cases hd with
      | root => exact hroot e he _ hm
      | @release a v d h =>
        obtain ⟨w, r, hw, hr, hs, rfl⟩ := Catalog.exists_release_of_describes h
        cases hw
        exact hrelease _ hmem (a, v) rfl r hr hs e he _ hm
    supersedes ho ho' hs :=
      hbetter _ (mem_editions_of_occurs hold ho) _ (mem_editions_of_occurs hold ho') hs }

def clashHeight : Edition → ℕ
  | some (c, v) => if c = library "b" ∧ v = ⟨"1"⟩ then 0 else 1
  | none => 1

theorem ends_of_clash :
    (∀ d, (ofPolicy .newest).Declares clashing clash d → ∀ c ∈ d.constraints,
      c.isSoft = true ∧ c.isConcrete = true) ∧
      ¬ (ofPolicy .newest).Chases clashing clash .newest ∧
      (ofPolicy .newest).Ends clashing clash := by
  have hall : ∀ d ∈ (clash.inventory clashing.descriptor).descriptors, ∀ c ∈ d.constraints,
      c.isSoft = true ∧ c.isConcrete = true := by decide +kernel
  have hc : ∀ d, (ofPolicy .newest).Declares clashing clash d → ∀ c ∈ d.constraints,
      c.isSoft = true ∧ c.isConcrete = true := fun d hd =>
    hall d (mem_of_declares (clash.inventory_holds clashing.descriptor) hd)
  have hh : (ofPolicy .newest).IsHeight clashing clash .newest clashHeight :=
    isHeight_of_catalog (by decide +kernel) (by decide +kernel) (by decide +kernel)
  exact ⟨hc, hh.not_chases,
    ends_of_not_chases (by decide) rfl clash.isFinite hc hh.not_chases⟩

/-- Three libraries, the older version of each of which wants the newer version of the next. -/
def ring : Catalog := shelf [("a", "1", [("b", "2")]), ("b", "1", [("c", "2")]),
  ("c", "1", [("a", "2")]), ("a", "2", []), ("b", "2", []), ("c", "2", [])]

def ringing : Request := .anonymous (wanted [("a", "1"), ("b", "1"), ("c", "1")]) .empty

theorem brings_of_wanted {resolver : Resolver Catalog} {d : Descriptor} {x v : Text}
    (hd : resolver.Tells q s o d) (hx : .plain (library x) (.soft ⟨v⟩) ∈ d.dependencies) :
    resolver.Brings q s o (some (library x, ⟨v⟩)) :=
  .intro hd hx (.inl rfl) rfl

theorem tells_of_descriptor {c : Coordinate} {v : Version} {d : Descriptor}
    (h : s.descriptor (.root c v) = .ok d) : (ofPolicy p).Tells q s (some (c, v)) d :=
  .release ⟨s, .refl, .root c v, rfl, rfl, h⟩

/-- In the ring each library ousts the next one, and so itself in the end. -/
theorem chases_of_ring : (ofPolicy .newest).Chases ringing ring .newest := by
  have hroot (x : Text) (hx : .plain (library x) (.soft ⟨"1"⟩) ∈ ringing.dependencies) :
      (ofPolicy .newest).Brings ringing ring none (some (library x, ⟨"1"⟩)) :=
    brings_of_wanted .root hx
  have hnext (x y : Text)
      (h : ring.descriptor (.root (library x) ⟨"1"⟩) = .ok ⟨wanted [(y, "2")], .empty⟩) :
      (ofPolicy .newest).Brings ringing ring (some (library x, ⟨"1"⟩)) (some (library y, ⟨"2"⟩)) :=
    brings_of_wanted (tells_of_descriptor h) (List.mem_singleton_self _)
  have ha := hroot "a" (List.mem_cons_self ..)
  have hb := hroot "b" (List.mem_cons_of_mem _ (List.mem_cons_self ..))
  have hc := hroot "c" (List.mem_cons_of_mem _ (List.mem_cons_of_mem _ (List.mem_cons_self ..)))
  have hab := hnext "a" "b" rfl
  have hbc := hnext "b" "c" rfl
  have hca := hnext "c" "a" rfl
  have hstirs (x y : Text) (hne : library y ≠ library x)
      (hxy : (ofPolicy .newest).Brings ringing ring (some (library x, ⟨"1"⟩))
        (some (library y, ⟨"2"⟩)))
      (hy : (ofPolicy .newest).Brings ringing ring none (some (library y, ⟨"1"⟩)))
      (hs : Policy.newest.supersedes (some (library y, ⟨"2"⟩)) (some (library y, ⟨"1"⟩)) = true) :
      (ofPolicy .newest).Stirs ringing ring .newest (some (library x, ⟨"1"⟩))
        (some (library y, ⟨"1"⟩)) := by
    refine ⟨_, .single ⟨hxy, fun z hz hm => ?_⟩, .single hy, hs⟩
    cases hz
    exact hne (List.mem_singleton.mp hm)
  refine ⟨_, .single ha, .tail (.tail (.single (hstirs "a" "b" ?_ hab hb ?_))
    (hstirs "b" "c" ?_ hbc hc ?_)) (hstirs "c" "a" ?_ hca ha ?_)⟩ <;> decide +kernel

example : (ofPolicy .newest).finishes 12 ringing ring = false := by decide +kernel

end Catalog

end Resolver

end Mediation
