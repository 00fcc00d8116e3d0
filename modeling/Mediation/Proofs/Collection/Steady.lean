import Mediation.Proofs.Collection.Move
import Mediation.Proofs.Collection.Sprout

/-! # Moves keep a collection steady

A situation is steady if its collection is sound, and no identity lacks a winner but
those that have yet to elect one. Every move leads from a steady situation to another.
-/

namespace Mediation.Collection

variable {rules : Rules} {ev : Evidence} {s t : Collection} {i x w : ℕ} {k : Key} {ks : List Key}

/-- A sound collection in which the identities without a winner are about to elect one. -/
structure Steady (a : Situation) : Prop where
  sound : a.1.Sound
  seated : a.1.Seated a.2

theorem SameShape.steady (h : s.SameShape t) (hs : Steady (s, ks)) : Steady (t, ks) :=
  ⟨h.sound hs.sound, h.seated hs.seated⟩

theorem mem_contendersOf : i ∈ s.contendersOf k ↔ i ∈ s.contenders ∧ (s.node i).key = k := by
  simp [contendersOf]

theorem of_winner?_eq_some (h : s.winner? k = some i) :
    i ∈ s.contenders ∧ (s.node i).key = k ∧ (s.node i).state = .included := by
  obtain ⟨hm, hk⟩ := mem_contendersOf.mp (List.mem_of_find?_eq_some h)
  exact ⟨hm, hk, isIncluded_iff.mp (List.find?_some h)⟩

theorem mem_eligible : i ∈ s.eligible k ↔ i ∈ s.contenders ∧ (s.node i).key = k ∧
    (s.node i).state = .omittedForConflict ∧ (s.node i).version.isSome = true ∧
      ∃ p : ℕ, (s.node i).parent = some p ∧ (s.node p).state = .included := by
  simp only [eligible, List.mem_filter, mem_contendersOf, isEligible, Bool.and_eq_true,
    beq_iff_eq, Option.any_eq_true, isIncluded_iff, and_assoc]

theorem Sound.winner?_eq_none_iff (h : s.Sound) : s.winner? k = none ↔
    ∀ w : ℕ, w ≠ Graph.root → (s.node w).state = .included → (s.node w).key ≠ k := by
  rw [winner?, List.find?_eq_none]
  constructor
  · intro hn w hr hi hk
    exact hn w (mem_contendersOf.mpr ⟨(h.live w hr (.inr hi)).1, hk⟩) (isIncluded_iff.mpr hi)
  · intro hn w hw hi
    obtain ⟨hm, hk⟩ := mem_contendersOf.mp hw
    exact hn w (h.ne_root_of_contender hm) (isIncluded_iff.mp hi) hk

theorem isVacant_iff : s.isVacant k = true ↔ s.winner? k = none ∧ s.eligible k ≠ [] := by
  simp [isVacant]

theorem isSome_of_isBacked {n : Node} (h : n.IsBacked ev) : n.version.isSome = true := by
  obtain h | ⟨v, h, -⟩ := h
  · unfold Run.keepsVersion at h
    unfold Node.version
    split at h
    · cases hs : n.artifact.selected with
      | none => simp [hs] at h
      | some _ => rfl
    · cases hs : n.artifact.selected with
      | none => simp [hs] at h
      | some _ => rfl
  · rw [h]; rfl

namespace Steady

theorem pending_contender (h : s.Sound) (hp : (s.node x).state = .pending) : x ∈ s.contenders := by
  refine (h.live x ?_ (.inl hp)).1
  rintro rfl
  rw [h.root_included] at hp
  cases hp

theorem children_of_fate (hs : s.Sound)
    (hl : (s.node i).state = .pending ∨ (s.node i).state = .included)
    (hf : s.graph.isIncluded i = false ∨ (s.node i).expanded = false) :
    (s.node i).children = [] := by
  obtain hn | hx := hf
  · refine hs.fresh i (hs.idle i (hl.resolve_right fun hi => ?_))
    rw [isIncluded_iff.mpr hi] at hn
    cases hn
  · exact hs.fresh i hx

theorem collapse (h : Steady (s, [])) (hi : i ∈ s.contenders)
    (hl : (s.node i).state = .pending ∨ (s.node i).state = .included) (e : NodeError) :
    Steady (s.collapse i e) := by
  have hs := h.sound
  have hsh := (agrees_collapse (children_of_fate hs hl) e).sameShape
  refine ⟨hsh.sound (hs.topple hi (by decide) (by decide) nofun), hsh.seated ?_⟩
  refine hs.seated_topple hi (by decide) (by decide) h.seated nofun fun d hd hdi => ?_
  rw [mem_agenda_collapse hs.tree (hs.fresh i) e]
  obtain rfl | hd := hd
  · exact ⟨isIncluded_iff.mpr hdi, .inl rfl⟩
  · refine ⟨isIncluded_iff.mpr ?_, .inr ⟨d, hd, isIncluded_iff.mpr hdi, rfl⟩⟩
    by_contra hn
    exact (hs.not_live_below hn hd).2 hdi

theorem rebase (h : Steady (s, [])) (hi : i ∈ s.contenders) (v : Version) :
    Steady (s.rebase i v) := by
  have hs := h.sound
  have hv := sameShape_select s i v
  have hsh := (agrees_rebase hs.tree (hs.lt_size_of_contender hi) (hs.fresh i) v).sameShape
  refine ⟨hsh.sound ((hv.sound hs).detach hi), hsh.seated ?_⟩
  refine (hv.sound hs).seated_detach hi (hv.seated h.seated) nofun fun d hd hdi => ?_
  rw [hv.descendants] at hd
  rw [hv.state] at hdi
  rw [mem_agenda_rebase (hs.fresh i), hv.key]
  exact ⟨d, hd, isIncluded_iff.mpr hdi, rfl⟩

theorem yieldTo (h : Steady (s, [])) (hp : (s.node x).state = .pending)
    (hv : (s.node x).version.isSome = true)
    (hw : s.winner? (s.node x).key ≠ none) (w : NodeId) : Steady (s.yieldTo w x, []) := by
  have hs := h.sound
  have hx := pending_contender hs hp
  have hsh := (agrees_yieldTo (w := w) (hs.fresh x (hs.idle x hp))).sameShape
  refine hsh.steady ⟨hs.topple hx (by decide) (by decide) fun _ => hv, ?_⟩
  have hseat : (s.topple x .omittedForConflict).Seated [(s.node x).key] := by
    refine hs.seated_topple hx (by decide) (by decide) h.seated (fun _ => by simp) ?_
    rintro d (rfl | hd) hdi
    · simp
    · exact absurd hdi (hs.not_live_below (by rw [hp]; decide) hd).2
  obtain ⟨c, hc⟩ := Option.ne_none_iff_exists'.mp hw
  obtain ⟨hcm, hck, hci⟩ := of_winner?_eq_some hc
  refine hseat.of_winners fun k hk => .inr ⟨c, hs.ne_root_of_contender hcm, ?_, ?_⟩
  · rw [hs.topple_of_not_mem hx]
    · exact hci
    · rintro rfl
      rw [hp] at hci
      cases hci
    · exact fun hd => (hs.not_live_below (by rw [hp]; decide) hd).2 hci
  · rw [view_topple Node.key fun _ _ => rfl, hck, List.mem_singleton.mp hk]

theorem displace (h : Steady (s, [])) (hp : (s.node x).state = .pending)
    (hv : (s.node x).version.isSome = true) (hw : s.winner? (s.node x).key = some i) :
    Steady (s.displace (s.node x).key i x) := by
  have hs := h.sound
  have hx := pending_contender hs hp
  obtain ⟨hi, hk, hii⟩ := of_winner?_eq_some hw
  have hri := hs.ne_root_of_contender hi
  have hne : x ≠ i := by
    rintro rfl
    rw [hp] at hii
    cases hii
  have hkey (j : ℕ) : ((s.topple i .omittedForConflict).node j).key = (s.node j).key :=
    view_topple Node.key fun _ _ => rfl
  have hsh := (agrees_displace hs.tree (hs.lt_size_of_contender hi) (hs.lt_size_of_contender hx)
    hne (hs.fresh i) (s.node x).key hp).sameShape
  have ht : (s.topple i .omittedForConflict).Sound :=
    hs.topple hi (by decide) (by decide) fun _ => hs.versioned i hri hii
  have hagenda (k : Key) := mem_agenda_displace hs.tree (hs.lt_size_of_contender hi)
    (hs.lt_size_of_contender hx) hne (hs.fresh i) (s.node x).key k
  have hseat : (s.topple i .omittedForConflict).Seated
      ((s.node x).key :: (s.displace (s.node x).key i x).2) := by
    refine hs.seated_topple hi (by decide) (by decide) h.seated (fun _ => by simp [hk]) ?_
    rintro d (rfl | hd) hdi
    · simp [hk]
    · exact List.mem_cons_of_mem _ ((hagenda _).mpr ⟨d, hd, .inr (isIncluded_iff.mpr hdi), rfl⟩)
  by_cases hm : x ∈ s.graph.descendants i
  · rw [if_pos hm] at hsh
    refine ⟨hsh.sound ht, hsh.seated (hseat.of_winners fun k hk => .inl ?_)⟩
    obtain rfl | hk := List.mem_cons.mp hk
    · exact (hagenda _).mpr ⟨x, hm, .inl rfl, rfl⟩
    · exact hk
  · rw [if_neg hm] at hsh
    have hxn : (s.topple i .omittedForConflict).node x = s.node x :=
      hs.topple_of_not_mem hi hne hm
    have hxc : x ∈ (s.topple i .omittedForConflict).contenders := by rwa [contenders_topple]
    have hxp : ((s.topple i .omittedForConflict).node x).state = .pending := by rw [hxn, hp]
    have hxl := ht.idle x hxp
    have hxr := hs.ne_root_of_contender hx
    have hxv : ((s.topple i .omittedForConflict).node x).version.isSome = true := by rw [hxn, hv]
    have hu (w : ℕ) (hwr : w ≠ Graph.root)
        (hwi : ((s.topple i .omittedForConflict).node w).state = .included) :
        ((s.topple i .omittedForConflict).node w).key ≠
          ((s.topple i .omittedForConflict).node x).key := by
      intro he
      obtain ⟨hwi', -, hwn⟩ := hs.of_live_topple hi (by decide) (by decide) (.inr hwi)
      rw [hkey, hkey, ← hk] at he
      rw [hwn] at hwi
      exact hwi' (hs.unique w i hwr hri hwi hii he)
    refine ⟨hsh.sound (ht.accept hxc hxl (ht.live x hxr (.inl hxp)).2 hxv hu),
      hsh.seated (ht.seated_accept hxc hxl ?_)⟩
    rw [hkey]
    exact hseat

theorem accept (h : Steady (s, [])) (hp : (s.node x).state = .pending)
    (hv : (s.node x).version.isSome = true) (hw : s.winner? (s.node x).key = none) :
    Steady (s.accept x, []) := by
  have hs := h.sound
  have hx := pending_contender hs hp
  have hl := hs.idle x hp
  refine ⟨hs.accept hx hl (hs.live x (hs.ne_root_of_contender hx) (.inl hp)).2 hv
    (hs.winner?_eq_none_iff.mp hw), hs.seated_accept hx hl ?_⟩
  exact h.seated.of_winners nofun

theorem revive (h : Steady (s, k :: ks)) (hv : s.isVacant k = true) (hw : w ∈ s.eligible k)
    (cs : List NodeId) : Steady (s.revive w cs, ks) := by
  have hs := h.sound
  obtain ⟨hwc, hwk, hws, hwv, p, hwp, hpi⟩ := mem_eligible.mp hw
  have hd := fun j => hs.not_live_below (i := w) (j := j) (by rw [hws]; decide)
  have hsh := (agrees_revive hs.tree (hs.lt_size_of_contender hwc) (hs.fresh w) hd cs).sameShape
  have ht := hs.detach hwc
  have hkey (j : ℕ) : ((s.detach w).node j).key = (s.node j).key :=
    view_detach Node.key (fun _ _ => rfl) fun _ => rfl
  have hversion : ((s.detach w).node w).version = (s.node w).version :=
    view_detach Node.version (fun _ _ => rfl) fun _ => rfl
  have hparent : ((s.detach w).node w).parent = (s.node w).parent :=
    view_detach Node.parent (fun _ _ => rfl) fun _ => rfl
  have hwd : w ∈ (s.detach w).contenders :=
    mem_contenders_detach.mpr ⟨hwc, hs.not_mem_descendants⟩
  have hpd : p ∉ s.graph.descendants w := fun hp => (hd p hp).2 hpi
  refine hsh.steady ⟨ht.accept hwd (hs.expanded_detach hwc) ⟨p, hparent.trans hwp, ?_⟩
    (hversion ▸ hwv) fun j hjr hji he => ?_, ht.seated_accept hwd (hs.expanded_detach hwc) ?_⟩
  · rw [hs.detach_state_of_not_mem hwc hpd, hpi]
  · rw [hs.detach_state_of_not_mem hwc (hs.not_mem_of_live_detach hwc (.inr hji))] at hji
    rw [hkey, hkey, hwk] at he
    exact hs.winner?_eq_none_iff.mp (isVacant_iff.mp hv).1 j hjr hji he
  · rw [hkey, hwk]
    exact hs.seated_detach hwc h.seated (fun _ hk => hk) fun d hdm hdi =>
      absurd hdi (hd d hdm).2

theorem skip (h : Steady (s, k :: ks)) (hv : s.isVacant k = false) : Steady (s, ks) := by
  have hs := h.sound
  refine ⟨hs, fun m p hm hmp hpi hmo => ?_⟩
  obtain hk | hw := h.seated m p hm hmp hpi hmo
  · obtain hk | hk := List.mem_cons.mp hk
    · cases hw : s.winner? k with
      | some c =>
        obtain ⟨hcm, hck, hci⟩ := of_winner?_eq_some hw
        exact .inr ⟨c, hs.ne_root_of_contender hcm, hci, hck.trans hk.symm⟩
      | none =>
        obtain ⟨q, hq, hmq⟩ := hs.contender m hm
        obtain rfl : q = p := Option.some.inj (hq.symm.trans hmp)
        have hme : m ∈ s.eligible k :=
          mem_eligible.mpr ⟨hm, hk, hmo, hs.settled q m hpi hmq hmo, q, hmp, hpi⟩
        have hvac := isVacant_iff.mpr ⟨hw, List.ne_nil_of_mem hme⟩
        rw [hvac] at hv
        cases hv
    · exact .inl hk
  · exact .inr hw

theorem expand (h : Steady (s, [])) (hi : (s.node x).state = .included) (d : Descriptor) :
    Steady ((s.expand rules x d).2, []) := by
  have hsize : x < s.graph.size := Graph.lt_size_of_isIncluded (isIncluded_iff.mpr hi)
  suffices hg : ∀ a b : Growth, Sprout rules x a b →
      (Steady (a.2.2, []) ∧ (a.2.2.node x).state = .included ∧ (a.2.2.node x).expanded = true) →
      Steady (b.2.2, []) ∧ (b.2.2.node x).state = .included ∧ (b.2.2.node x).expanded = true by
    refine ((sprouts_expand rules s x d).preserve hg ⟨⟨h.sound.opened hi d, ?_⟩, ?_, ?_⟩).1
    · intro m p
      rw [view_opened d Node.parent fun _ => rfl, view_opened d Node.state fun _ => rfl,
        view_opened d Node.state fun _ => rfl, view_opened d Node.key fun _ => rfl]
      intro hm hmp hpi hmo
      obtain hk | ⟨w, hr, hw, hk⟩ := h.seated m p hm hmp hpi hmo
      · cases hk
      · exact .inr ⟨w, hr, (view_opened d Node.state fun _ => rfl).trans hw,
          (view_opened d Node.key fun _ => rfl).trans hk⟩
    · exact (view_opened d Node.state fun _ => rfl).trans hi
    · exact congrArg Node.expanded (node_opened_self d hsize)
  rintro _ _ (⟨e⟩ | _ | @⟨d, ds, ids, t, c, hc⟩) ⟨ht, hti, htx⟩
  · exact ⟨(Agrees.emit _ e).sameShape.steady ht, hti, htx⟩
  · exact ⟨ht, hti, htx⟩
  · have hts : x < t.graph.size := Graph.lt_size_of_isIncluded (isIncluded_iff.mpr hti)
    refine ⟨⟨ht.sound.adopt hti c htx, ht.sound.seated_adopt hti c ht.seated⟩, ?_, ?_⟩
    · rw [node_adopt hts, if_pos rfl]; exact hti
    · rw [node_adopt hts, if_pos rfl]; exact htx

end Steady

theorem state_collapse (hs : s.Sound) (hi : i ∈ s.contenders)
    (hl : (s.node i).state = .pending ∨ (s.node i).state = .included) (e : NodeError) :
    ((s.collapse i e).1.node i).state = .failed := by
  rw [(agrees_collapse (Steady.children_of_fate hs hl) e).state, hs.topple_node hi, if_pos rfl]

theorem Move.steady {a b : Situation} (m : Move rules ev x a b) (h : Steady a) : Steady b := by
  cases m with
  | tell e => exact (Agrees.emit _ e).sameShape.steady h
  | choose _ _ => exact (sameShape_select _ _ _).steady h
  | tighten _ _ => exact (sameShape_constrain _ _ _).steady h
  | retain _ _ _ => exact (sameShape_constrain _ _ _).steady h
  | shift hn _ _ _ => exact ((sameShape_constrain _ _ _).steady h).rebase hn.rival.mem _
  | @abandon s current c e hn _ _ =>
    have hsh := sameShape_constrain s current c
    refine (hsh.steady h).collapse hn.rival.mem (.inr ?_) e
    rw [hsh.state]
    exact isIncluded_iff.mp hn.rival.included
  | reject e hp _ => exact h.collapse (Steady.pending_contender h.sound hp) (.inl hp) e
  | seat hp hb hw _ => exact h.accept hp (isSome_of_isBacked hb) hw
  | yield hp hb hw _ _ => exact h.yieldTo hp (isSome_of_isBacked hb) (hw ▸ nofun) _
  | displace hp hb hw _ _ => exact h.displace hp (isSome_of_isBacked hb) hw
  | lose e hr hi _ _ =>
    have hi := isIncluded_iff.mp hi
    exact h.collapse (h.sound.live x hr (.inr hi)).1 (.inr hi) e
  | revive hv he => exact h.revive hv (mem_of_elect he) _
  | skip hv => exact h.skip hv

theorem Moves.steady {a b : Situation} (m : Moves rules ev x a b) (h : Steady a) : Steady b :=
  m.preserve (fun _ _ m h => m.steady h) h

/-- What every move from a steady situation preserves is preserved by all moves from there. -/
theorem Moves.preserve_of_steady {P : Situation → Prop} {a b : Situation}
    (m : Moves rules ev x a b) (h : Steady a)
    (hP : ∀ a b, Move rules ev x a b → Steady a → P a → P b) (ha : P a) : P b := by
  have key : Steady b ∧ P b := m.preserve (P := fun b => Steady b ∧ P b)
    (fun a b m hp => ⟨m.steady hp.1, hP a b m hp.1 hp.2⟩) ⟨h, ha⟩
  exact key.2

end Mediation.Collection
