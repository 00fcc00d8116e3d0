import Mediation.Proofs.Collection.Facing
import Mediation.Proofs.Constraint.Meeting
import Mediation.Proofs.Resolution.Lasting
import Mediation.Proofs.Resolution.Nearest

/-! # Versions within declared ranges

A constraint is only ever narrowed, and a recommendation is acceptable to the constraint that
carries it. So the version of a node is one that the node was declared with, unless its
constraint has come to recommend a moving target, of which only the name was looked at.
-/

namespace Mediation

namespace Constraint

variable {c d e : Constraint} {v : Version}

/-- Whether a constraint is a mere recommendation or a range, as all written ones are. -/
def IsWritten (c : Constraint) : Prop := c.recommended = none ∨ ∃ v, c = soft v

def IsMoving (c : Constraint) : Prop := ∃ r, c.recommended = some r ∧ isOpenVersion r = true

theorem IsWritten.contains_of_recommended (h : c.IsWritten) (hr : c.recommended = some v) :
    c.contains v = true := by
  rcases h with hn | ⟨w, rfl⟩
  · rw [hn] at hr
    cases hr
  · exact contains_soft w v

theorem IsMoving.intersect (h : c.IsMoving) (hc : ∀ r, c.recommended = some r → c.contains r = true)
    (hd : d.IsWritten) (hm : c.intersect d = .ok e) : e.recommended = none ∨ e.IsMoving := by
  obtain ⟨r, hr, ho⟩ := h
  rcases hd with hn | ⟨v, rfl⟩
  · cases he : e.recommended with
    | none => exact .inl rfl
    | some w =>
      obtain ⟨hw, -⟩ := of_recommended_intersect hm he
      rw [hn] at hw
      exact .inr ⟨w, he, Option.some.inj ((hw.resolve_right nofun).symm.trans hr) ▸ ho⟩
  · have her : e.contains r = true := (contains_intersect hm r).mpr ⟨hc r hr, contains_soft v r⟩
    exact .inr ⟨r, recommended_intersect hm hr her, ho⟩

end Constraint

theorem Source.Offers.contains {σ : Type} {src : Source σ} {st : σ} {k : Coordinate}
    {c : Constraint} {v : Version} (h : src.Offers st k c v)
    (hc : ∀ r, c.recommended = some r → c.contains r = true) :
    c.contains v = true ∨ c.IsMoving := by
  cases h with
  | recommended hr _ => exact .inl (hc v hr)
  | concrete hr ho _ _ => exact .inr ⟨_, hr, ho⟩
  | listed _ _ _ hs => exact .inl (Constraint.of_select_eq_ok hs).2

/-- Whether a node has a version that it was declared with, but for moving targets. -/
structure Node.Abides (n : Node) : Prop where
  within : ∀ v, n.constraint.contains v = true → n.declaredConstraint.contains v = true
  accepts : ∀ r, n.constraint.recommended = some r → n.constraint.contains r = true
  version : ∀ v, n.version = some v →
    n.declaredConstraint.contains v = true ∨ n.constraint.IsMoving

namespace Node.Abides

variable {n : Node} {c d : Constraint} {v : Version}

theorem of_stock {m : Node} (h : m.Abides) (hs : n.stock = m.stock) : n.Abides := by
  have hc : n.constraint = m.constraint := (congrArg Node.constraint hs :)
  have hd : n.declaredConstraint = m.declaredConstraint :=
    (congrArg Node.declaredConstraint hs :)
  have hv : n.version = m.version := (congrArg Node.version hs :)
  exact ⟨by rw [hc, hd]; exact h.within, by rw [hc]; exact h.accepts,
    by rw [hv, hc, hd]; exact h.version⟩

theorem of_offered (h : n.constraint.contains v = true ∨ n.constraint.IsMoving)
    (hw : ∀ v, n.constraint.contains v = true → n.declaredConstraint.contains v = true)
    (hr : ∀ r, n.constraint.recommended = some r → n.constraint.contains r = true)
    (hv : n.version = some v) : n.Abides := by
  refine ⟨hw, hr, fun w hw' => ?_⟩
  obtain rfl := Option.some.inj (hv.symm.trans hw')
  exact h.imp_left (hw v)

/-- A node that was settled with what it was declared with may be narrowed by whatever it meets. -/
theorem tighten (h : n.Abides) (hn : n.constraint = n.declaredConstraint)
    (hw : n.declaredConstraint.IsWritten)
    (hm : d.intersect n.declaredConstraint = .ok c) :
    ({ n with constraint := c } : Node).Abides where
  within v hv := (Constraint.contains_of_intersect hm hv).2
  accepts r hr := (Constraint.of_recommended_intersect hm hr).2
  version v hv := by
    refine .inl ?_
    rcases hw with hnone | ⟨w, hsoft⟩
    · refine (h.version v hv).resolve_right ?_
      rintro ⟨r, hr, -⟩
      rw [hn, hnone] at hr
      cases hr
    · exact hsoft ▸ Constraint.contains_soft w v

/-- A winner that may keep its version under a narrowed constraint keeps an acceptable one. -/
theorem retain (h : n.Abides) (hd : d.IsWritten) (hm : n.constraint.intersect d = .ok c)
    (hk : Run.keepsVersion n.artifact c = true) :
    ({ n with constraint := c } : Node).Abides where
  within v hv := h.within v (Constraint.contains_of_intersect hm hv).1
  accepts r hr := (Constraint.of_recommended_intersect hm hr).2
  version v hv := by
    rcases h.version v hv with hc | hch
    · exact .inl hc
    refine (hch.intersect h.accepts hd hm).imp (fun hn => ?_) fun hc => hc
    have hv : n.artifact.selected = some v := hv
    rw [Run.keepsVersion, hn, hv] at hk
    exact h.within v (Constraint.contains_of_intersect hm hk).1

end Node.Abides

namespace Collection

/-- Whether all declarations are written ones, and all nodes in play abide by theirs. -/
structure Abiding (s : Collection) : Prop where
  complies : s.Complies Constraint.IsWritten
  node : ∀ j : ℕ, s.InPlay j → (s.node j).state ≠ .failed → (s.node j).Abides

namespace Abiding

variable {σ : Type} {src : Source σ} {st : σ} {rules : Rules} {s t : Collection} {x : ℕ}
  {d : Descriptor}

theorem agrees (h : s.Abiding) (ha : s.Agrees t) : t.Abiding where
  complies := h.complies.of_fades (E := ∅) (.of_agrees ha)
  node j hj hf := by
    rw [ha.state] at hf
    exact (h.node j ((Fades.of_agrees (E := ∅) ha).inPlay j hj) hf).of_stock
      (Node.stock_of_core (ha.core j))

theorem move {a b : Situation} (h : a.1.Abiding) (m : Move rules (src.evidence st) x a b)
    (hs : Steady a) : b.1.Abiding := by
  obtain ⟨E, hf⟩ := m.fades hs
  refine ⟨h.complies.of_fades hf, fun j hj hn => ?_⟩
  have hja := hf.inPlay j hj
  have hw {j : ℕ} (hj : j ∈ a.1.contenders) :=
    h.complies.declared j (hs.sound.ne_root_of_contender hj) (hs.sound.lt_size_of_contender hj)
  cases m.becomes hs hj with
  | rest hst hfail => exact (h.node j hja fun hfa => hn (hfail hfa)).of_stock hst
  | choose hjx hp hv he =>
    subst hjx
    have hab := h.node j hja (by rw [hp]; decide)
    rw [he]
    exact .of_offered (hv.contains hab.accepts) hab.within hab.accepts rfl
  | tighten hjx hnar hd he =>
    subst hjx
    rw [he]
    exact (h.node j hja (by rw [hnar.pending]; decide)).tighten hd (hw hja.1) hnar.meeting
  | retain hnar hk he =>
    have hx := hw (Steady.pending_contender hs.sound hnar.pending)
    rw [he]
    refine (h.node j hja ?_).retain hx hnar.meeting hk
    rw [isIncluded_iff.mp hnar.rival.included]
    decide
  | @shift c v hnar hv he =>
    have hab := h.node j hja (by rw [isIncluded_iff.mp hnar.rival.included]; decide)
    have hr (r : Version) (hr : c.recommended = some r) : c.contains r = true :=
      (Constraint.of_recommended_intersect hnar.meeting hr).2
    refine Node.Abides.of_stock ?_ (Node.stock_of_core he)
    exact .of_offered (hv.contains hr)
      (fun v hv => hab.within v (Constraint.contains_of_intersect hnar.meeting hv).1) hr rfl
  | fail hst => exact absurd hst hn

theorem expand (h : s.Abiding) (hs : s.Sound) (hx : x < s.graph.size)
    (hc : (s.expand rules x d).2.Complies Constraint.IsWritten) :
    (s.expand rules x d).2.Abiding := by
  refine ⟨hc, fun j hj hn => ?_⟩
  rcases of_inPlay_expand hx d hs hj with ⟨hlt, hj⟩ | ⟨hge, hlt, -⟩
  · rw [state_expand hx d hlt] at hn
    have hab := h.node j hj hn
    have hcon : ((s.expand rules x d).2.node j).constraint = (s.node j).constraint :=
      constraint_expand hx d hlt
    have hdec : ((s.expand rules x d).2.node j).declaredConstraint =
        (s.node j).declaredConstraint :=
      declaredConstraint_expand hx d hlt
    have hver : ((s.expand rules x d).2.node j).version = (s.node j).version :=
      view_expand hx d Node.version (fun _ => rfl) (fun _ _ => rfl) hlt
    exact ⟨by rw [hcon, hdec]; exact hab.within, by rw [hcon]; exact hab.accepts,
      by rw [hver, hcon, hdec]; exact hab.version⟩
  · have hw := hc.declared j (Nat.ne_of_gt (hs.tree.size_pos.trans_le hge)) hlt
    have hge' : (s.opened x d).graph.size ≤ j := (size_opened d).trans_le hge
    have hcon := (adds_expand rules hx d).blank j hlt hge'
    have hver := (adds_expand rules hx d).bare j hlt hge'
    refine ⟨fun v hv => hcon ▸ hv, fun r hr => ?_, fun v hv => ?_⟩
    · rw [hcon] at hr ⊢
      exact hw.contains_of_recommended hr
    · rw [hver] at hv
      cases hv

end Abiding

end Collection

namespace Resolver

open Collection

variable {σ : Type} {resolver : Resolver σ} {q : Request} {st : σ}

theorem lasts_abiding (hw : ∀ d, resolver.Declares q st d → ∀ c ∈ d.constraints, c.IsWritten) :
    resolver.Lasts q st Abiding where
  start := ⟨(lasts_complies hw).start, fun j hj => absurd hj.1 List.not_mem_nil⟩
  clear h := h.agrees (agrees_clear _)
  move m hs h := h.move m hs
  expand {s x d} hs h hx hd := by
    have hlt : x < s.graph.size := Graph.lt_size_of_isIncluded (isIncluded_iff.mpr hx)
    exact h.expand hs hlt ((lasts_complies hw).expand hs h.complies hx hd)

/-- In a finished resolution an artifact has a version that it was declared with, if the
constraint that it ends with does not recommend a moving target. -/
theorem declared_contains_version {fuel : ℕ} {res : Resolution}
    (hw : ∀ d, resolver.Declares q st d → ∀ c ∈ d.constraints, c.IsWritten)
    (h : (resolver.resolve fuel q st).1 = .ok (some res)) {n : NodeId}
    (hn : n ∈ res.graph.included) (hr : n ≠ Graph.root)
    (hc : ¬ (res.graph.node n).constraint.IsMoving) :
    ∃ v, (res.graph.node n).version = some v ∧
      (res.graph.node n).declaredConstraint.contains v = true := by
  obtain ⟨s, hg, hs, hlasts⟩ := exists_of_resolve h
  have hs := hs.sound
  rw [← hg] at hn hc ⊢
  obtain ⟨-, hi⟩ := hs.mem_included_iff.mp hn
  obtain ⟨v, hv⟩ := Option.isSome_iff_exists.mp (hs.versioned n hr hi)
  have hab := (hlasts _ (lasts_abiding hw)).node n (hs.inPlay hr (.inr hi)) (by rw [hi]; decide)
  exact ⟨v, hv, (hab.version v hv).resolve_right hc⟩

/-- A library that was left open is moved to the older version that another one insists on. -/
theorem declared_contains_version_of_narrowed :
    ∃ res, ((ofPolicy .nearest).resolve 5 narrowing narrowed).1 = .ok (some res) ∧
      (∀ d, (ofPolicy .nearest).Declares narrowing narrowed d → ∀ c ∈ d.constraints,
        c.IsWritten) ∧
      1 ∈ res.graph.included ∧ ¬ (res.graph.node 1).constraint.IsMoving ∧
      ∃ v, (res.graph.node 1).version = some v ∧
        (res.graph.node 1).declaredConstraint.contains v = true := by
  obtain ⟨res, h⟩ := finishes_iff.mp
    (show (ofPolicy .nearest).finishes 5 narrowing narrowed = true by decide +kernel)
  obtain ⟨hres, -, -⟩ := reaches_of_resolve h
  have hn : 1 ∈ res.graph.included := by
    rw [hres]
    decide +kernel
  have hrec : (res.graph.node 1).constraint.recommended = none := by
    rw [hres]
    decide +kernel
  have hc : ¬ (res.graph.node 1).constraint.IsMoving := by
    rintro ⟨r, hr, -⟩
    rw [hrec] at hr
    cases hr
  have hall : ∀ d ∈ (narrowed.inventory narrowing.descriptor).descriptors,
      ∀ c ∈ d.constraints, c.recommended = none ∨ ∃ v ∈ c.recommended, c = .soft v := by
    decide +kernel
  have hw : ∀ d, (ofPolicy .nearest).Declares narrowing narrowed d → ∀ c ∈ d.constraints,
      c.IsWritten := by
    intro d hd c hc
    have hd := mem_of_declares (narrowed.inventory_holds _) hd
    exact (hall d hd c hc).imp_right fun ⟨v, _, hv⟩ => ⟨v, hv⟩
  exact ⟨res, h, hw, hn, hc, declared_contains_version hw h hn (by decide) hc⟩

end Resolver

end Mediation
