import Mediation.Proofs.Collection.Facing
import Mediation.Proofs.Resolution.Lasting

/-! # The winner is the best

A policy orders the nodes of an identity by what it looks at, and then by their ids. A winner
stays before all losers of its identity in this order, whoever is displaced, lost or elected
anew: each election takes the least of its candidates, and these are listed by their ids.
-/

namespace Mediation

open Std

namespace Policy

instance : TransCmp compareVersions where
  eq_swap {v w} := by
    cases v with
    | none => cases w <;> rfl
    | some v =>
      cases w with
      | none => rfl
      | some w => exact (OrientedCmp.eq_swap : v.compare w = (w.compare v).swap)
  isLE_trans {u v w} huv hvw := by
    cases u with
    | none => cases w <;> rfl
    | some u =>
      cases v with
      | none => cases huv
      | some v =>
        cases w with
        | none => cases hvw
        | some w =>
          have huv : (u.compare v).isLE := huv
          have hvw : (v.compare w).isLE := hvw
          exact (TransCmp.isLE_trans huv hvw : (u.compare w).isLE)

/-- What a policy looks at: the better node comes first. -/
def merit (p : Policy) : Node → Node → Ordering :=
  match p with
  | nearest => compareOn Node.depth
  | newest => fun m n => compareVersions n.version m.version
  | oldest => fun m n => compareVersions m.version n.version

instance (p : Policy) : TransCmp p.merit :=
  match p with
  | nearest => inferInstanceAs (TransCmp (compareOn Node.depth))
  | newest =>
    have := Version.transCmp_comp (fun v w => compareVersions w v) Node.version
    this
  | oldest => Version.transCmp_comp compareVersions Node.version

/-- Whether a node comes before another one: it is better, or as good and older. -/
def Beats (p : Policy) (m n : Node) : Prop := compareLex p.merit (compareOn Node.id) m n = .lt

variable {p : Policy} {m n o : Node}

theorem Beats.trans (h : p.Beats m n) (h' : p.Beats n o) : p.Beats m o := by
  unfold Beats at *
  exact TransCmp.lt_trans h h'

theorem merit_eq_gt_iff : p.merit m n = .gt ↔ p.merit n m = .lt := OrientedCmp.gt_iff_lt

theorem prefers_iff : p.prefers m n = true ↔ p.merit m n = .lt := by
  cases p with
  | nearest => simp [prefers, merit, compareOn, Nat.compare_eq_lt]
  | newest =>
    have h : compareVersions m.version n.version = .gt ↔
        compareVersions n.version m.version = .lt :=
      OrientedCmp.gt_iff_lt
    simp [prefers, merit, h]
  | oldest => simp [prefers, merit]

theorem beats_of_prefers (h : p.prefers m n = true) : p.Beats m n := by
  simp [Beats, compareLex, prefers_iff.mp h]

theorem beats_of_not_prefers (h : p.prefers n m = false) (hid : m.id < n.id) : p.Beats m n := by
  have hle : p.merit m n ≠ .gt := by
    rw [ne_eq, merit_eq_gt_iff, ← prefers_iff, h]
    decide
  have hc : compare m.id n.id = .lt := Nat.compare_eq_lt.mpr hid
  cases hm : p.merit m n with
  | lt => simp [Beats, compareLex, hm]
  | eq => simp [Beats, compareLex, compareOn, hm, hc]
  | gt => exact absurd hm hle

theorem best_mem (first : Node) (others : List Node) : p.best first others ∈ first :: others := by
  induction others generalizing first with
  | nil => exact List.mem_singleton_self first
  | cons m ms ih =>
    have h : p.best first (m :: ms) ∈ (if p.prefers m first then m else first) :: ms := ih _
    split at h
    · exact List.mem_cons_of_mem _ h
    · rcases List.mem_cons.mp h with h | h
      · exact List.mem_cons.mpr (.inl h)
      · exact List.mem_cons_of_mem _ (List.mem_cons_of_mem _ h)

theorem beats_of_best (first : Node) (others : List Node)
    (hs : (first :: others).Pairwise (·.id < ·.id)) :
    ∀ n ∈ first :: others, n = p.best first others ∨ p.Beats (p.best first others) n := by
  induction others generalizing first with
  | nil => exact fun n hn => .inl (List.mem_singleton.mp hn)
  | cons m ms ih =>
    have hfm : first.id < m.id := List.rel_of_pairwise_cons hs (List.mem_cons_self ..)
    have hstep : p.best first (m :: ms) = p.best (if p.prefers m first then m else first) ms := rfl
    rw [hstep]
    -- of the first two nodes one goes on, and comes before the other
    obtain ⟨c, d, hc, hd, hcd, hsc⟩ : ∃ c d, (if p.prefers m first then m else first) = c ∧
        (∀ n, n = first ∨ n = m → n = c ∨ n = d) ∧ p.Beats c d ∧
        (c :: ms).Pairwise (·.id < ·.id) := by
      cases hp : p.prefers m first with
      | true =>
        exact ⟨m, first, rfl, fun n hn => hn.symm, beats_of_prefers hp, hs.of_cons⟩
      | false =>
        refine ⟨first, m, rfl, fun n hn => hn, beats_of_not_prefers hp hfm, ?_⟩
        exact hs.sublist ((List.sublist_cons_self m ms).cons_cons first)
    rw [hc]
    have hbest := ih c hsc
    intro n hn
    have hcases : n = c ∨ n = d ∨ n ∈ ms := by
      rcases List.mem_cons.mp hn with hn | hn
      · rcases hd n (.inl hn) with h | h
        · exact .inl h
        · exact .inr (.inl h)
      · rcases List.mem_cons.mp hn with hn | hn
        · rcases hd n (.inr hn) with h | h
          · exact .inl h
          · exact .inr (.inl h)
        · exact .inr (.inr hn)
    rcases hcases with rfl | rfl | hn
    · exact hbest n (List.mem_cons_self ..)
    · rcases hbest c (List.mem_cons_self ..) with h | h
      · exact .inr (h ▸ hcd)
      · exact .inr (h.trans hcd)
    · exact hbest n (List.mem_cons_of_mem _ hn)

structure Alike (p : Policy) (m n : Node) : Prop where
  id : m.id = n.id
  depth : m.depth = n.depth
  version : p ≠ nearest → m.version = n.version

theorem Beats.congr {m' n' : Node} (h : p.Beats m n) (hm : p.Alike m' m) (hn : p.Alike n' n) :
    p.Beats m' n' := by
  have he : p.merit m' n' = p.merit m n := by
    cases p with
    | nearest => simp only [merit, compareOn, hm.depth, hn.depth]
    | newest => simp only [merit, hm.version nofun, hn.version nofun]
    | oldest => simp only [merit, hm.version nofun, hn.version nofun]
  simpa only [Beats, compareLex, compareOn, he, hm.id, hn.id] using h

end Policy

namespace Collection

variable {rules : Rules} {ev : Evidence} {s t : Collection} {p : Policy} {i j x w : ℕ}
  {d : Descriptor}

/-- Who is elected comes before all other candidates, if these are listed by their ids. -/
theorem beats_of_elect (hs : s.Sound) (hp : rules.arbiter = p.arbiter) {k : Key} {ids : List NodeId}
    (hids : ids.Pairwise (· < ·)) (hlt : ∀ j ∈ ids, j < s.graph.size)
    (he : s.elect rules k ids = .ok w) : ∀ j ∈ ids, j = w ∨ p.Beats (s.node w) (s.node j) := by
  have hid {j : ℕ} (hj : j ∈ ids) : (s.node j).id = j := hs.tree.id_eq j (hlt j hj)
  cases ids with
  | nil => nofun
  | cons i is =>
    have hw : (p.best (s.node i) (is.map s.node)).id = w := by
      unfold elect at he
      dsimp only at he
      rw [hp] at he
      split at he
      · rename_i choice hc
        split at he
        · cases he
          exact Except.ok.inj hc
        · cases he
      · cases he
    obtain ⟨b, hb, hbn⟩ := List.mem_map.mp
      (show p.best (s.node i) (is.map s.node) ∈ (i :: is).map s.node from Policy.best_mem _ _)
    obtain rfl : b = w := by rw [← hid hb, hbn, hw]
    have hsorted : ((i :: is).map s.node).Pairwise (·.id < ·.id) := by
      rw [List.pairwise_map]
      refine hids.imp_of_mem fun {a c} ha hc hac => ?_
      rwa [hid ha, hid hc]
    intro j hj
    rcases Policy.beats_of_best (p := p) _ _ hsorted (s.node j) (List.mem_map_of_mem hj) with h | h
    · refine .inl ?_
      rw [← hid hj, h, hw]
    · exact .inr (hbn ▸ h)

theorem beats_of_elect_pair (hs : s.Sound) (hp : rules.arbiter = p.arbiter) {k : Key}
    (hi : i < s.graph.size) (hx : x < s.graph.size) (hne : i ≠ x)
    (he : s.elect rules k [min i x, max i x] = .ok w) (hj : j = i ∨ j = x) (hjw : j ≠ w) :
    p.Beats (s.node w) (s.node j) := by
  refine (beats_of_elect hs hp ?_ (fun l hl => ?_) he j ?_).resolve_left hjw
  · simpa using hne
  · rcases (by simpa using hl : l = min i x ∨ l = max i x) with rfl | rfl
    · exact min_lt_of_left_lt hi
    · exact max_lt hi hx
  · have hmem : j = min i x ∨ j = max i x := by omega
    simpa using hmem

/-- Whether only recommendations are declared, and none in play was narrowed. -/
structure Mild (s : Collection) : Prop where
  complies : s.Complies (·.isSoft = true)
  soft : ∀ j : ℕ, s.InPlay j → (s.node j).state ≠ .failed → (s.node j).constraint.isSoft = true

namespace Mild

theorem not_isNarrowing (h : s.Mild) (hs : s.Sound) {c : Constraint}
    (hn : s.IsNarrowing x i c) : False := by
  have hx := Steady.pending_contender hs hn.pending
  have hi := h.soft i (hs.inPlay_of_rival hn.rival)
    (by rw [isIncluded_iff.mp hn.rival.included]; decide)
  have hd := h.complies.declared x (hs.ne_root_of_contender hx) (hs.lt_size_of_contender hx)
  have hh := hn.hard
  rw [hi, hd] at hh
  cases hh

theorem agrees (h : s.Mild) (ha : s.Agrees t) : t.Mild where
  complies := h.complies.of_fades (E := ∅) (.of_agrees ha)
  soft j hj hf := by
    rw [ha.constraint]
    rw [ha.state] at hf
    exact h.soft j ((Fades.of_agrees (E := ∅) ha).inPlay j hj) hf

theorem move {a b : Situation} (h : a.1.Mild) (m : Move rules ev x a b) (hs : Steady a) :
    b.1.Mild := by
  obtain ⟨E, hf⟩ := m.fades hs
  refine ⟨h.complies.of_fades hf, fun j hj hn => ?_⟩
  have hja := hf.inPlay j hj
  cases m.becomes hs hj with
  | rest hst hfail =>
    have hc : (b.1.node j).constraint = (a.1.node j).constraint :=
      (congrArg Node.constraint hst :)
    exact hc ▸ h.soft j hja fun hfa => hn (hfail hfa)
  | choose hjx hp _ he =>
    subst hjx
    rw [he]
    exact h.soft j hja (by rw [hp]; decide)
  | tighten _ hn => exact (h.not_isNarrowing hs.sound hn).elim
  | retain hn => exact (h.not_isNarrowing hs.sound hn).elim
  | shift hn => exact (h.not_isNarrowing hs.sound hn).elim
  | fail hst => exact absurd hst hn

theorem expand (h : s.Mild) (hs : s.Sound) (hx : x < s.graph.size)
    (hc : (s.expand rules x d).2.Complies (·.isSoft = true)) : (s.expand rules x d).2.Mild := by
  refine ⟨hc, fun j hj hn => ?_⟩
  rcases of_inPlay_expand hx d hs hj with ⟨hlt, hj⟩ | ⟨hge, hlt, -⟩
  · rw [constraint_expand hx d hlt]
    rw [state_expand hx d hlt] at hn
    exact h.soft j hj hn
  · rw [(adds_expand rules hx d).blank j hlt ((size_opened d).trans_le hge)]
    exact hc.declared j (Nat.ne_of_gt (hs.tree.size_pos.trans_le hge)) hlt

end Mild

/-- Whether every winner in play comes before the losers of its identity. -/
structure Ranked (p : Policy) (s : Collection) : Prop where
  sorted : s.contenders.Pairwise (· < ·)
  best : ∀ w m : ℕ, s.InPlay w → s.InPlay m → (s.node w).state = .included →
    (s.node m).state = .omittedForConflict → (s.node w).key = (s.node m).key →
      p.Beats (s.node w) (s.node m)
  mild : p ≠ .nearest → s.Mild

namespace Ranked

theorem agrees (h : s.Ranked p) (ha : s.Agrees t) : t.Ranked p := by
  have hf : Fades ∅ s t := .of_agrees ha
  refine ⟨ha.contenders ▸ h.sorted, fun w m hw hm hwi hmo hk => ?_, fun hp => (h.mild hp).agrees ha⟩
  rw [ha.state] at hwi hmo
  rw [ha.key, ha.key] at hk
  have halike (j : ℕ) : p.Alike (t.node j) (s.node j) :=
    ⟨congrArg Site.id (ha.site j), congrArg Site.depth (ha.site j), fun _ => ha.version j⟩
  exact (h.best w m (hf.inPlay w hw) (hf.inPlay m hm) hwi hmo hk).congr (halike w) (halike m)

theorem alike {a b : Situation} (h : a.1.Ranked p) (m : Move rules ev x a b) (hs : Steady a)
    (hj : b.1.InPlay j) (hp : (b.1.node j).state ≠ .pending) (hf : (b.1.node j).state ≠ .failed) :
    p.Alike (b.1.node j) (a.1.node j) := by
  obtain ⟨E, hfade⟩ := m.fades hs
  refine ⟨congrArg Site.id (hfade.site j), congrArg Site.depth (hfade.site j), fun hpn => ?_⟩
  have hmild := h.mild hpn
  cases m.becomes hs hj with
  | rest hst => exact (congrArg Node.version hst :)
  | choose hjx hpx _ he =>
    rw [he] at hp
    exact absurd hpx hp
  | tighten _ hn => exact (hmild.not_isNarrowing hs.sound hn).elim
  | retain hn => exact (hmild.not_isNarrowing hs.sound hn).elim
  | shift hn => exact (hmild.not_isNarrowing hs.sound hn).elim
  | fail hst => exact absurd hst hf

theorem beats_of_faces (h : s.Ranked p) (hs : s.Sound) (hp : rules.arbiter = p.arbiter) {m : ℕ}
    (hf : Faces rules x s w m) (hw : s.InPlay w) (hm : s.InPlay m)
    (hk : (s.node w).key = (s.node m).key) (hne : m ≠ w) : p.Beats (s.node w) (s.node m) := by
  have hlt {j : ℕ} (hj : s.InPlay j) := hs.lt_size_of_contender hj.1
  cases hf with
  | still hwi hmo => exact h.best w m hw hm hwi hmo hk
  | yields hmx _ _ he =>
    subst hmx
    exact beats_of_elect_pair hs hp (hlt hw) (hlt hm) hne.symm he (.inr rfl) hne
  | displaces hwx _ _ _ he =>
    subst hwx
    exact beats_of_elect_pair hs hp (hlt hm) (hlt hw) hne he (.inl rfl) hne
  | @inherits i hwx _ hi hix he _ hmo =>
    subst hwx
    obtain ⟨hic, hik, hii⟩ := of_winner?_eq_some hi
    have hip := hs.inPlay (hs.ne_root_of_contender hic) (.inr hii)
    -- the newcomer comes before the winner so far, and that one before the loser
    have h₁ : p.Beats (s.node w) (s.node i) :=
      beats_of_elect_pair hs hp (hlt hip) (hlt hw) hix.ne he (.inl rfl) hix.ne
    exact h₁.trans (h.best i m hip hm hii hmo (hik.trans hk))
  | @revives k _ he hme =>
    have hsub : (s.eligible k).Sublist s.contenders :=
      List.filter_sublist.trans List.filter_sublist
    exact (beats_of_elect hs hp (h.sorted.sublist hsub)
      (fun j hj => hs.lt_size_of_contender (hsub.subset hj)) he m hme).resolve_left hne

theorem move {a b : Situation} (h : a.1.Ranked p) (hp : rules.arbiter = p.arbiter)
    (m : Move rules ev x a b) (hs : Steady a) : b.1.Ranked p := by
  obtain ⟨E, hf⟩ := m.fades hs
  refine ⟨h.sorted.sublist (m.contenders_sublist hs), fun w l hw hl hwi hlo hk => ?_,
    fun hpn => (h.mild hpn).move m hs⟩
  have hka : (a.1.node w).key = (a.1.node l).key := by
    rwa [Node.key_of_site (hf.site w), Node.key_of_site (hf.site l)] at hk
  have hne : l ≠ w := by
    rintro rfl
    rw [hwi] at hlo
    cases hlo
  have hbeats := h.beats_of_faces hs.sound hp (m.faces hs hw hl hwi hlo hka) (hf.inPlay w hw)
    (hf.inPlay l hl) hka hne
  exact hbeats.congr (h.alike m hs hw (by rw [hwi]; decide) (by rw [hwi]; decide))
    (h.alike m hs hl (by rw [hlo]; decide) (by rw [hlo]; decide))

theorem expand (h : s.Ranked p) (hs : s.Sound) (hx : x < s.graph.size)
    (hc : p ≠ .nearest → (s.expand rules x d).2.Complies (·.isSoft = true)) :
    (s.expand rules x d).2.Ranked p := by
  have halike {j : ℕ} (hj : j < s.graph.size) :
      p.Alike ((s.expand rules x d).2.node j) (s.node j) :=
    ⟨view_expand hx d Node.id (fun _ => rfl) (fun _ _ => rfl) hj,
      view_expand hx d Node.depth (fun _ => rfl) (fun _ _ => rfl) hj,
      fun _ => view_expand hx d Node.version (fun _ => rfl) (fun _ _ => rfl) hj⟩
  exact {
    sorted := by
      have ha := adds_expand rules hx d
      rw [contenders_expand hx d]
      refine List.pairwise_append.mpr ⟨h.sorted, ha.sorted, fun i hi j hj => ?_⟩
      exact (hs.lt_size_of_contender hi).trans_le
        ((size_opened d).symm.trans_le (ha.created j hj).1)
    best w m hw hm hwi hmo hk := by
      obtain ⟨hwlt, hw, hwi⟩ := inPlay_of_expand hx d hs hw hwi (by decide)
      obtain ⟨hmlt, hm, hmo⟩ := inPlay_of_expand hx d hs hm hmo (by decide)
      rw [key_expand hx d hwlt, key_expand hx d hmlt] at hk
      exact (h.best w m hw hm hwi hmo hk).congr (halike hwlt) (halike hmlt)
    mild hpn := (h.mild hpn).expand hs hx (hc hpn) }

end Ranked

end Collection

namespace Resolver

open Collection

variable {σ : Type} {resolver : Resolver σ} {q : Request} {st : σ} {p : Policy}

theorem lasts_ranked (ha : resolver.arbiter = p.arbiter) (hsoft : p ≠ .nearest →
    ∀ d, resolver.Declares q st d → ∀ c ∈ d.constraints, c.isSoft = true) :
    resolver.Lasts q st (Ranked p) where
  start := by
    have hc {j : ℕ} : ¬ (Collection.start q.root q.version q.management).InPlay j := fun h =>
      List.not_mem_nil h.1
    exact ⟨.nil, fun w m hw => absurd hw hc, fun hp =>
      ⟨(lasts_complies (hsoft hp)).start, fun j hj => absurd hj hc⟩⟩
  clear h := h.agrees (agrees_clear _)
  move m hs h := h.move ha m hs
  expand {s x d} hs h hx hd := by
    have hlt : x < s.graph.size := Graph.lt_size_of_isIncluded (isIncluded_iff.mpr hx)
    exact h.expand hs hlt fun hp => (lasts_complies (hsoft hp)).expand hs (h.mild hp).complies hx hd

/-- In a finished resolution a winner comes before every loser of its identity that is left: in
depth and id under the nearest winner, and in version and id under the other policies, if there
are recommendations only. -/
theorem winner_precedes_losers {fuel : ℕ} {res : Resolution} (ha : resolver.arbiter = p.arbiter)
    (h : (resolver.resolve fuel q st).1 = .ok (some res)) {n m : NodeId}
    (hn : n ∈ res.graph.included) (hm : m ∈ res.graph.visible)
    (hk : (res.graph.node n).key = (res.graph.node m).key)
    (ho : (res.graph.node m).state = .omittedForConflict) :
    (p = .nearest → (res.graph.node n).depth < (res.graph.node m).depth ∨
      (res.graph.node n).depth = (res.graph.node m).depth ∧ n < m) ∧
    ((∀ d, resolver.Declares q st d → ∀ c ∈ d.constraints, c.isSoft = true) →
      ∃ v w, (res.graph.node n).version = some v ∧ (res.graph.node m).version = some w ∧
        (p = .newest → v.compare w = .gt ∨ v.compare w = .eq ∧ n < m) ∧
        (p = .oldest → v.compare w = .lt ∨ v.compare w = .eq ∧ n < m)) := by
  obtain ⟨s, hg, hs, hlasts⟩ := exists_of_resolve h
  have hs := hs.sound
  rw [← hg] at hn hm hk ho ⊢
  obtain ⟨hnr, hni⟩ := hs.mem_included_iff.mp hn
  have hmr : m ≠ Graph.root := by
    rintro rfl
    have hi := hs.root_included
    rw [node, ho] at hi
    cases hi
  have hnp := hs.inPlay hnr (.inr hni)
  have hmp := hs.inPlay_of_visible hm hmr (by rw [node, ho]; decide)
  have hid {j : ℕ} (hj : s.InPlay j) : (s.graph.node j).id = j :=
    hs.tree.id_eq j (hs.lt_size_of_contender hj.1)
  have hbeats (hsoft : p ≠ .nearest → ∀ d, resolver.Declares q st d → ∀ c ∈ d.constraints,
      c.isSoft = true) : p.Beats (s.graph.node n) (s.graph.node m) :=
    (hlasts _ (lasts_ranked ha hsoft)).best n m hnp hmp hni ho hk
  refine ⟨fun hp => ?_, fun hsoft => ?_⟩
  · subst hp
    have hb := hbeats (absurd rfl)
    simp only [Policy.Beats, Policy.merit, compareLex, compareOn, Ordering.then_eq_lt,
      Nat.compare_eq_lt, Nat.compare_eq_eq, hid hnp, hid hmp] at hb
    exact hb
  · obtain ⟨v, hv⟩ := Option.isSome_iff_exists.mp (hs.versioned n hnr hni)
    obtain ⟨r, hri, hmc, hpar⟩ := hs.parent_of_visible hm hmr
    obtain ⟨w, hw⟩ := Option.isSome_iff_exists.mp (hs.settled r m hri hmc ho)
    have hv : (s.graph.node n).version = some v := hv
    have hw : (s.graph.node m).version = some w := hw
    refine ⟨v, w, hv, hw, fun hp => ?_, fun hp => ?_⟩
    · subst hp
      have hb := hbeats fun _ => hsoft
      simp only [Policy.Beats, Policy.merit, compareLex, compareOn, Ordering.then_eq_lt,
        Nat.compare_eq_lt, hid hnp, hid hmp, hv, hw, Policy.compareVersions] at hb
      rwa [← OrientedCmp.gt_iff_lt, OrientedCmp.eq_comm] at hb
    · subst hp
      have hb := hbeats fun _ => hsoft
      simpa only [Policy.Beats, Policy.merit, compareLex, compareOn, Ordering.then_eq_lt,
        Nat.compare_eq_lt, hid hnp, hid hmp, hv, hw, Policy.compareVersions] using hb

/-- A library in two versions, of which the newer one is found further down. -/
theorem winner_precedes_loser_of_clash :
    ∃ res, ((ofPolicy .newest).resolve 5 clashing clash).1 = .ok (some res) ∧
      3 ∈ res.graph.included ∧ 2 ∈ res.graph.visible ∧
      (∀ d, (ofPolicy .newest).Declares clashing clash d → ∀ c ∈ d.constraints,
        c.isSoft = true) ∧
      ∃ v w, (res.graph.node 3).version = some v ∧ (res.graph.node 2).version = some w ∧
        (v.compare w = .gt ∨ v.compare w = .eq ∧ 3 < 2) := by
  obtain ⟨res, h⟩ := finishes_iff.mp
    (show (ofPolicy .newest).finishes 5 clashing clash = true by decide +kernel)
  obtain ⟨hres, -, -⟩ := reaches_of_resolve h
  have hn : 3 ∈ res.graph.included := by
    rw [hres]
    decide +kernel
  have hm : 2 ∈ res.graph.visible ∧ (res.graph.node 2).state = .omittedForConflict ∧
      (res.graph.node 3).key = (res.graph.node 2).key := by
    rw [hres]
    decide +kernel
  have hall : ∀ d ∈ (clash.inventory clashing.descriptor).descriptors,
      ∀ c ∈ d.constraints, c.isSoft = true := by decide +kernel
  have hsoft : ∀ d, (ofPolicy .newest).Declares clashing clash d → ∀ c ∈ d.constraints,
      c.isSoft = true := by
    intro d hd
    exact hall d (mem_of_declares (clash.inventory_holds _) hd)
  obtain ⟨v, w, hv, hw, hnew, -⟩ :=
    (winner_precedes_losers rfl h hn hm.1 hm.2.2 hm.2.1).2 hsoft
  exact ⟨res, h, hn, hm.1, hsoft, v, w, hv, hw, hnew rfl⟩

end Resolver

end Mediation
