import Mediation.Proofs.Collection.Candor
import Mediation.Proofs.Resolution.Range

/-! # Losers that agree with their winner

A winner and a newcomer are narrowed to what both accept before one of them gives way, and a
winner that takes over from another one has its constraint. So a loser accepts what its winner
accepts, as long as no loser was revived, which has not met those that came after it.
-/

namespace Mediation

namespace Constraint

variable {c d e : Constraint} {v : Version}

/-- Whether a constraint accepts what it recommends, as all do that are written or met. -/
def IsCoherent (c : Constraint) : Prop := ∀ r, c.recommended = some r → c.contains r = true

theorem IsWritten.isCoherent (h : c.IsWritten) : c.IsCoherent :=
  fun _ hr => h.contains_of_recommended hr

theorem isCoherent_of_intersect (h : c.intersect d = .ok e) : e.IsCoherent :=
  fun _ hr => (of_recommended_intersect h hr).2

theorem IsCoherent.contains_of_isSoft (h : c.IsCoherent) (hs : c.isSoft = true) (v : Version) :
    c.contains v = true := by
  obtain ⟨hr, hall⟩ := Bool.and_eq_true_iff.mp hs
  obtain ⟨r, hr⟩ := Option.isSome_iff_exists.mp hr
  obtain ⟨t, ht, -⟩ := List.any_eq_true.mp (h r hr)
  obtain ⟨hl, hu⟩ := Bool.and_eq_true_iff.mp (List.all_eq_true.mp hall t ht)
  refine List.any_eq_true.mpr ⟨t, ht, ?_⟩
  rw [Restriction.contains, Option.isNone_iff_eq_none.mp hl, Option.isNone_iff_eq_none.mp hu]
  rfl

end Constraint

variable {σ : Type} {src : Source σ} {st : σ}

theorem Source.Offers.contains_of_none {k : Coordinate} {c : Constraint} {v : Version}
    (h : src.Offers st k c v) (hr : c.recommended = none) : c.contains v = true := by
  have hno {p : Prop} (r : Version) (h : c.recommended = some r) : p := by
    rw [hr] at h
    cases h
  refine (h.contains fun r h => hno r h).resolve_right ?_
  rintro ⟨r, h, -⟩
  exact hno r h

/-- A node that is backed under a constraint that recommends nothing has an acceptable version. -/
theorem Node.IsBacked.contains {n : Node} (h : n.IsBacked (src.evidence st))
    (hr : n.constraint.recommended = none) {v : Version} (hv : n.version = some v) :
    n.constraint.contains v = true := by
  rcases h with hk | ⟨w, hw, ho⟩
  · have hv : n.artifact.selected = some v := hv
    rw [Run.keepsVersion, hr, hv] at hk
    exact hk
  · obtain rfl := Option.some.inj (hw.symm.trans hv)
    exact Source.Offers.contains_of_none ho hr

/-- Whether a constraint was only ever narrowed, and a settled version is acceptable to it unless
it recommends one. -/
structure Node.Obeys (n : Node) : Prop where
  within : ∀ v, n.constraint.contains v = true → n.declaredConstraint.contains v = true
  coherent : n.constraint.IsCoherent
  version : n.state = .included ∨ n.state = .omittedForConflict →
    n.constraint.recommended = none → ∀ v, n.version = some v → n.constraint.contains v = true

namespace Collection

variable {rules : Rules} {ev : Evidence} {s t : Collection} {j m w x : ℕ} {n : Node}

theorem Becomes.narrows (h : Becomes ev x s j n) (hn : n.state ≠ .failed)
    (hc : (s.node j).constraint.IsCoherent) : n.constraint.IsCoherent ∧
      ∀ v, n.constraint.contains v = true → (s.node j).constraint.contains v = true := by
  cases h with
  | rest hst =>
    have he : n.constraint = (s.node j).constraint := (congrArg Node.constraint hst :)
    rw [he]
    exact ⟨hc, fun _ hv => hv⟩
  | choose hj _ _ he =>
    subst hj he
    exact ⟨hc, fun _ hv => hv⟩
  | tighten hj hnar hd he =>
    subst hj he
    refine ⟨Constraint.isCoherent_of_intersect hnar.meeting, fun v hv => ?_⟩
    rw [hd]
    exact (Constraint.contains_of_intersect hnar.meeting hv).2
  | retain hnar _ he =>
    subst he
    exact ⟨Constraint.isCoherent_of_intersect hnar.meeting,
      fun v hv => (Constraint.contains_of_intersect hnar.meeting hv).1⟩
  | shift hnar _ he =>
    have he : n.constraint = _ := (congrArg Node.constraint he :)
    rw [he]
    exact ⟨Constraint.isCoherent_of_intersect hnar.meeting,
      fun v hv => (Constraint.contains_of_intersect hnar.meeting hv).1⟩
  | fail hst => exact absurd hst hn

theorem Becomes.live (h : Becomes ev x s j n) (hn : n.state ≠ .failed) :
    (s.node j).state ≠ .failed := by
  cases h with
  | rest _ hf => exact fun hs => hn (hf hs)
  | choose hj hp =>
    subst hj
    rw [hp]
    decide
  | tighten hj hnar =>
    subst hj
    rw [hnar.pending]
    decide
  | retain hnar =>
    rw [isIncluded_iff.mp hnar.rival.included]
    decide
  | shift hnar =>
    rw [isIncluded_iff.mp hnar.rival.included]
    decide
  | fail hst => exact absurd hst hn

/-- A node that has its place now had one before, or is a newcomer with a version. -/
theorem Turns.settled (h : Turns ev s t j)
    (ht : (t.node j).state = .included ∨ (t.node j).state = .omittedForConflict) :
    ((s.node j).state = .included ∨ (s.node j).state = .omittedForConflict) ∨
      (s.node j).state = .pending ∧ (s.node j).IsBacked ev := by
  cases h with
  | stays hst => exact .inl (hst ▸ ht)
  | sits hp hb => exact .inr ⟨hp, hb⟩
  | falls hl => exact hl.elim .inr fun h => .inl (.inl h)
  | rises ho => exact .inl (.inr ho)
  | fails hst =>
    rw [hst] at ht
    exact absurd ht (by decide)

theorem obeys_of_becomes (h : (s.node j).Obeys) (hb : Becomes (src.evidence st) x s j (t.node j))
    (ht : Turns (src.evidence st) s t j) (hn : (t.node j).state ≠ .failed)
    (hd : (t.node j).declaredConstraint = (s.node j).declaredConstraint) : (t.node j).Obeys := by
  obtain ⟨hc, hin⟩ := hb.narrows hn h.coherent
  refine ⟨fun v hv => hd ▸ h.within v (hin v hv), hc, fun hst hr v hv => ?_⟩
  cases hb with
  | rest hstock =>
    have hcon : (t.node j).constraint = (s.node j).constraint := (congrArg Node.constraint hstock :)
    have hver : (t.node j).version = (s.node j).version := (congrArg Node.version hstock :)
    rw [hcon] at hr ⊢
    rw [hver] at hv
    rcases ht.settled hst with hs | ⟨-, hb⟩
    · exact h.version hs hr v hv
    · exact hb.contains hr hv
  | choose hj hp _ he =>
    subst hj
    rw [he, hp] at hst
    exact absurd hst (by decide)
  | tighten hj hnar _ he =>
    subst hj
    rw [he, hnar.pending] at hst
    exact absurd hst (by decide)
  | retain hnar hk he =>
    rw [he] at hr hv ⊢
    have hv : (s.node j).artifact.selected = some v := hv
    have hr : _ = none := hr
    rw [Run.keepsVersion, hr, hv] at hk
    exact hk
  | @shift c w hnar hw he =>
    have hcon : (t.node j).constraint = c := (congrArg Node.constraint he :)
    have hver : (t.node j).version = some w := (congrArg Node.version he :)
    obtain rfl := Option.some.inj (hver.symm.trans hv)
    rw [hcon] at hr ⊢
    exact Source.Offers.contains_of_none hw hr
  | fail hst => exact absurd hst hn

/-- Whether every loser in play was declared to accept what the winner of its identity accepts,
unless a loser of the identity was revived. -/
structure Agreeing (s : Collection) : Prop where
  complies : s.Complies Constraint.IsCoherent
  candid : s.IsCandid
  obeys : ∀ j : ℕ, s.InPlay j → (s.node j).state ≠ .failed → (s.node j).Obeys
  agrees : ∀ w m : ℕ, s.InPlay w → s.InPlay m → (s.node w).state = .included →
    (s.node m).state = .omittedForConflict → (s.node w).key = (s.node m).key →
      s.HasRevived (s.node w).key ∨ ∀ v, (s.node w).constraint.contains v = true →
        (s.node m).declaredConstraint.contains v = true

namespace Agreeing

variable {d : Descriptor}

/-- A pair whose winner is not revived agrees when it comes to face each other. -/
theorem of_faces (h : s.Agreeing) (hs : s.Sound) (hf : Faces rules x s w m) (hw : s.InPlay w)
    (hm : s.InPlay m) (hk : (s.node w).key = (s.node m).key) :
    (s.node w).state = .omittedForConflict ∨ s.HasRevived (s.node w).key ∨
      ∀ v, (s.node w).constraint.contains v = true →
        (s.node m).declaredConstraint.contains v = true := by
  -- a mere recommendation was declared to accept everything
  have hsoft {j : ℕ} (hj : s.InPlay j) (hn : (s.node j).state ≠ .failed)
      (hjs : (s.node j).constraint.isSoft = true) (v : Version) :
      (s.node j).constraint.contains v = true :=
    (h.obeys j hj hn).coherent.contains_of_isSoft hjs v
  cases hf with
  | still hwi hmo => exact .inr (h.agrees w m hw hm hwi hmo hk)
  | yields hmx hp hi _ hmet =>
    subst hmx
    have ho := h.obeys m hm (by rw [hp]; decide)
    rcases hmet w hi with hss | he | hr
    · refine .inr (.inr fun v _ => ho.within v ?_)
      exact hsoft hm (by rw [hp]; decide) (Bool.and_eq_true_iff.mp hss).2 v
    · exact .inr (.inr fun v hv => ho.within v (he ▸ hv))
    · exact .inr (.inl (hk ▸ hr))
  | displaces hwx hp hi _ _ hmet =>
    subst hwx
    obtain ⟨-, -, hmi⟩ := of_winner?_eq_some hi
    have hn : (s.node m).state ≠ .failed := by rw [hmi]; decide
    have ho := h.obeys m hm hn
    rcases hmet m hi with hss | he | hr
    · refine .inr (.inr fun v _ => ho.within v ?_)
      exact hsoft hm hn (Bool.and_eq_true_iff.mp hss).1 v
    · exact .inr (.inr fun v hv => ho.within v (he ▸ hv))
    · exact .inr (.inl hr)
  | @inherits i hwx hp hi _ _ hmet hmo =>
    subst hwx
    obtain ⟨hic, hik, hii⟩ := of_winner?_eq_some hi
    have hip := hs.inPlay (hs.ne_root_of_contender hic) (.inr hii)
    -- the loser agrees with the winner so far, which the newcomer has met
    rcases h.agrees i m hip hm hii hmo (hik.trans hk) with hr | ha
    · exact .inr (.inl (hik ▸ hr))
    rcases hmet i hi with hss | he | hr
    · refine .inr (.inr fun v _ => ha v ?_)
      exact hsoft hip (by rw [hii]; decide) (Bool.and_eq_true_iff.mp hss).1 v
    · exact .inr (.inr fun v hv => ha v (he ▸ hv))
    · exact .inr (.inl hr)
  | revives _ he => exact .inl (mem_eligible.mp (mem_of_elect he)).2.2.1

theorem move {a b : Situation} (h : a.1.Agreeing) (m : Move rules (src.evidence st) x a b)
    (hs : Steady a) : b.1.Agreeing := by
  obtain ⟨E, hf⟩ := m.fades hs
  have hd (j : ℕ) : (b.1.node j).declaredConstraint = (a.1.node j).declaredConstraint :=
    congrArg Site.constraint (hf.site j)
  have hkey (j : ℕ) : (b.1.node j).key = (a.1.node j).key := Node.key_of_site (hf.site j)
  exact {
    complies := h.complies.of_fades hf
    candid := h.candid.move m hs
    obeys j hj hn := by
      have hb := m.becomes hs hj
      exact obeys_of_becomes (h.obeys j (hf.inPlay j hj) (hb.live hn)) hb (m.turns hs hj) hn (hd j)
    agrees w l hw hl hwi hlo hk := by
      have hwa := hf.inPlay w hw
      have hka : (a.1.node w).key = (a.1.node l).key := by rw [← hkey, ← hkey, hk]
      have hwn : (b.1.node w).state ≠ .failed := by rw [hwi]; decide
      have hb := m.becomes hs hw
      have hc := (h.obeys w hwa (hb.live hwn)).coherent
      rw [hd, hkey]
      rcases h.of_faces hs.sound (m.faces hs hw hl hwi hlo hka) hwa (hf.inPlay l hl) hka with
        ho | hr | hv
      · have hlt := (hs.sound.lt_size_of_contender hwa.1).trans_eq hf.size.symm
        exact .inl ⟨w, hlt, hkey w, (m.turns hs hw).isRevived ho hwi (h.candid w hwa ho)⟩
      · exact .inl (hr.of_extends (.of_tells m.tells))
      · exact .inr fun v hv' => hv v ((hb.narrows hwn hc).2 v hv') }

theorem expand (h : s.Agreeing) (hs : s.Sound) (hx : x < s.graph.size)
    (hc : (s.expand rules x d).2.Complies Constraint.IsCoherent) :
    (s.expand rules x d).2.Agreeing := by
  exact {
    complies := hc
    candid := h.candid.expand hs hx d
    obeys j hj hn := by
      rcases of_inPlay_expand hx d hs hj with ⟨hlt, hj⟩ | ⟨hge, hlt, hp⟩
      · have hcon : ((s.expand rules x d).2.node j).constraint = (s.node j).constraint :=
          constraint_expand hx d hlt
        rw [state_expand hx d hlt] at hn
        have ho := h.obeys j hj hn
        have hver : ((s.expand rules x d).2.node j).version = (s.node j).version :=
          view_expand hx d Node.version (fun _ => rfl) (fun _ _ => rfl) hlt
        exact ⟨by rw [hcon, declaredConstraint_expand hx d hlt]; exact ho.within,
          by rw [hcon]; exact ho.coherent,
          by rw [hcon, state_expand hx d hlt, hver]; exact ho.version⟩
      · have hblank := (adds_expand rules hx d).blank j hlt ((size_opened d).trans_le hge)
        refine ⟨fun v hv => hblank ▸ hv, ?_, fun hst => ?_⟩
        · rw [hblank]
          exact hc.declared j (Nat.ne_of_gt (hs.tree.size_pos.trans_le hge)) hlt
        · rw [hp] at hst
          exact absurd hst (by decide)
    agrees w l hw hl hwi hlo hk := by
      obtain ⟨hwlt, hw, hwi⟩ := inPlay_of_expand hx d hs hw hwi (by decide)
      obtain ⟨hllt, hl, hlo⟩ := inPlay_of_expand hx d hs hl hlo (by decide)
      rw [key_expand hx d hwlt, key_expand hx d hllt] at hk
      rw [key_expand hx d hwlt, constraint_expand hx d hwlt, declaredConstraint_expand hx d hllt]
      exact (h.agrees w l hw hl hwi hlo hk).imp_left fun hr => hr.of_extends (.expand rules hx d) }

end Agreeing

end Collection

namespace Resolver

open Collection

variable {resolver : Resolver σ} {q : Request}

theorem lasts_agreeing
    (hc : ∀ d, resolver.Declares q st d → ∀ c ∈ d.constraints, c.IsCoherent) :
    resolver.Lasts q st Agreeing where
  start := ⟨(lasts_complies hc).start, isCandid_start _ _ _,
    fun j hj => absurd hj.1 List.not_mem_nil, fun w _ hw => absurd hw.1 List.not_mem_nil⟩
  clear h := ⟨⟨h.complies.declared, h.complies.pins⟩, h.candid, h.obeys, h.agrees⟩
  move m hs h := h.move m hs
  expand {s x d} hs h hx hd := by
    have hlt : x < s.graph.size := Graph.lt_size_of_isIncluded (isIncluded_iff.mpr hx)
    exact h.expand hs hlt ((lasts_complies hc).expand hs h.complies hx hd)

/-- In a finished resolution every visible loser was declared to accept the version of its winner,
if no loser of the identity was revived, and the winner has the version that its constraint
recommends, if there is one. -/
theorem loser_accepts_winner {fuel : ℕ} {res : Resolution}
    (hc : ∀ d, resolver.Declares q st d → ∀ c ∈ d.constraints, c.IsCoherent)
    (h : (resolver.resolve fuel q st).1 = .ok (some res)) {n m : NodeId}
    (hn : n ∈ res.graph.included) (hm : m ∈ res.graph.visible)
    (hk : (res.graph.node n).key = (res.graph.node m).key)
    (ho : (res.graph.node m).state = .omittedForConflict)
    (hr : ¬ (resolver.resolve fuel q st).2.collection.HasRevived (res.graph.node n).key)
    (hv : ∀ r, (res.graph.node n).constraint.recommended = some r →
      ∃ v, (res.graph.node n).version = some v ∧ v.same r = true) :
    ∃ v, (res.graph.node n).version = some v ∧
      (res.graph.node m).declaredConstraint.contains v = true := by
  obtain ⟨hp, -, hg⟩ := poised_of_resolve h
  have hs := hp.steady.sound
  have ha : (resolver.resolve fuel q st).2.collection.Agreeing := (lasts_agreeing hc).of_resolve h
  generalize (resolver.resolve fuel q st).2.collection = s at hs hg ha hr
  rw [hg] at hn hm hk ho hr hv ⊢
  obtain ⟨hnr, hni⟩ := hs.mem_included_iff.mp hn
  have hmr : m ≠ Graph.root := by
    rintro rfl
    have hi := hs.root_included
    rw [node, ho] at hi
    cases hi
  have hnp := hs.inPlay hnr (.inr hni)
  have hmp := hs.inPlay_of_visible hm hmr (by rw [node, ho]; decide)
  have hobeys := ha.obeys n hnp (by rw [hni]; decide)
  have hagrees := (ha.agrees n m hnp hmp hni ho hk).resolve_left hr
  cases hrec : (s.graph.node n).constraint.recommended with
  | none =>
    obtain ⟨v, hver⟩ := Option.isSome_iff_exists.mp (hs.versioned n hnr hni)
    exact ⟨v, hver, hagrees v (hobeys.version (.inl hni) hrec v hver)⟩
  | some r =>
    obtain ⟨v, hver, hsame⟩ := hv r hrec
    refine ⟨v, hver, hagrees v ?_⟩
    rw [Constraint.contains_of_eq _ (Version.compare_eq_of_same hsame)]
    exact hobeys.coherent r hrec

/-- A library that insists on a version is left out for one that was left open, and is content
with the version that this one was moved to. -/
theorem loser_accepts_winner_of_narrowed :
    ∃ res, ((ofPolicy .nearest).resolve 5 narrowing narrowed).1 = .ok (some res) ∧
      (∀ d, (ofPolicy .nearest).Declares narrowing narrowed d → ∀ c ∈ d.constraints,
        c.IsCoherent) ∧
      1 ∈ res.graph.included ∧ 4 ∈ res.graph.visible ∧
      (res.graph.node 1).key = (res.graph.node 4).key ∧
      (res.graph.node 4).state = .omittedForConflict ∧
      ¬ ((ofPolicy .nearest).resolve 5 narrowing narrowed).2.collection.HasRevived
        (res.graph.node 1).key ∧
      (∀ r, (res.graph.node 1).constraint.recommended = some r →
        ∃ v, (res.graph.node 1).version = some v ∧ v.same r = true) ∧
      ∃ v, (res.graph.node 1).version = some v ∧
        (res.graph.node 4).declaredConstraint.contains v = true := by
  obtain ⟨res, h⟩ := finishes_iff.mp
    (show (ofPolicy .nearest).finishes 5 narrowing narrowed = true by decide +kernel)
  obtain ⟨hres, -, -⟩ := reaches_of_resolve h
  have hn : 1 ∈ res.graph.included := by
    rw [hres]
    decide +kernel
  have hm : 4 ∈ res.graph.visible := by
    rw [hres]
    decide +kernel
  have hk : (res.graph.node 1).key = (res.graph.node 4).key := by
    rw [hres]
    decide +kernel
  have ho : (res.graph.node 4).state = .omittedForConflict := by
    rw [hres]
    decide +kernel
  have hr : ¬ ((ofPolicy .nearest).resolve 5 narrowing narrowed).2.collection.HasRevived
      (res.graph.node 1).key := by
    rw [hres]
    decide +kernel
  have hrec : (res.graph.node 1).constraint.recommended = none := by
    rw [hres]
    decide +kernel
  have hv (r : Version) (hr : (res.graph.node 1).constraint.recommended = some r) :
      ∃ v, (res.graph.node 1).version = some v ∧ v.same r = true := by
    rw [hrec] at hr
    cases hr
  have hall : ∀ d ∈ (narrowed.inventory narrowing.descriptor).descriptors,
      ∀ c ∈ d.constraints, ∀ r ∈ c.recommended, c.contains r = true := by
    decide +kernel
  have hc (d : Descriptor) (hd : (ofPolicy .nearest).Declares narrowing narrowed d)
      (c : Constraint) (hc : c ∈ d.constraints) : c.IsCoherent :=
    hall d (mem_of_declares (narrowed.inventory_holds _) hd) c hc
  exact ⟨res, h, hc, hn, hm, hk, ho, hr, hv, loser_accepts_winner hc h hn hm hk ho hr hv⟩

end Resolver

end Mediation
