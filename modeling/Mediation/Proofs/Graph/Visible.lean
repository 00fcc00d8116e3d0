import Mediation.Proofs.Graph.Descent

/-! # The visible nodes

Breadth first, every child of a visible included node is met, and each just once:
the nodes of one level share their depth, and no node has two parents.
-/

namespace Mediation.Graph

variable {g : Graph} {a c p n m : ℕ} {level : List NodeId}

@[simp] theorem shownBelow_zero : g.shownBelow 0 level = [] := rfl

@[simp] theorem shownBelow_nil : g.shownBelow n [] = [] := by cases n <;> rfl

theorem shownBelow_succ : g.shownBelow (n + 1) level =
    level.flatMap g.children ++
      g.shownBelow n ((level.flatMap g.children).filter g.isIncluded) := by
  cases level with
  | nil => simp
  | cons _ _ => rfl

theorem mem_shownBelow_succ : c ∈ g.shownBelow (n + 1) level ↔
    (∃ p ∈ level, c ∈ g.children p) ∨
      c ∈ g.shownBelow n ((level.flatMap g.children).filter g.isIncluded) := by
  simp [shownBelow_succ, List.mem_flatMap]

theorem mem_next_iff : c ∈ (level.flatMap g.children).filter g.isIncluded ↔
    (∃ p ∈ level, c ∈ g.children p) ∧ g.isIncluded c = true := by
  simp [List.mem_flatMap]

theorem exists_of_mem_shownBelow (h : c ∈ g.shownBelow n level) :
    ∃ p, (p ∈ level ∨ (p ∈ g.shownBelow n level ∧ g.isIncluded p = true)) ∧ c ∈ g.children p := by
  induction n generalizing level with
  | zero => cases h
  | succ n ih =>
    rcases mem_shownBelow_succ.mp h with ⟨p, hp, hc⟩ | h
    · exact ⟨p, .inl hp, hc⟩
    · obtain ⟨p, hp | ⟨hp, hi⟩, hc⟩ := ih h
      · obtain ⟨hl, hi⟩ := mem_next_iff.mp hp
        exact ⟨p, .inr ⟨mem_shownBelow_succ.mpr (.inl hl), hi⟩, hc⟩
      · exact ⟨p, .inr ⟨mem_shownBelow_succ.mpr (.inr hp), hi⟩, hc⟩

theorem mem_shownBelow_of_child
    (h : p ∈ level ∨ (p ∈ g.shownBelow n level ∧ g.isIncluded p = true))
    (hc : c ∈ g.children p) : c ∈ g.shownBelow (n + 1) level := by
  induction n generalizing level with
  | zero =>
    obtain h | ⟨h, -⟩ := h
    · exact mem_shownBelow_succ.mpr (.inl ⟨p, h, hc⟩)
    · cases h
  | succ n ih =>
    obtain h | ⟨h, hi⟩ := h
    · exact mem_shownBelow_succ.mpr (.inl ⟨p, h, hc⟩)
    · refine mem_shownBelow_succ.mpr (.inr (ih ?_))
      obtain h | h := mem_shownBelow_succ.mp h
      · exact .inl (mem_next_iff.mpr ⟨h, hi⟩)
      · exact .inr ⟨h, hi⟩

namespace IsTree

/-- Ids grow from level to level, so as many levels as the ids leave room for are enough. -/
theorem mem_shownBelow_mono (t : g.IsTree) (h : c ∈ g.shownBelow n level)
    (ha : ∀ b : ℕ, b ∈ level → a ≤ b) (hm : c < a + m + 1) : c ∈ g.shownBelow m level := by
  induction n generalizing level a m with
  | zero => cases h
  | succ n ih =>
    have hnext : ∀ b : ℕ, b ∈ (level.flatMap g.children).filter g.isIncluded → a + 1 ≤ b := by
      intro b hb
      obtain ⟨⟨q, hq, hb⟩, -⟩ := mem_next_iff.mp hb
      exact (ha q hq).trans_lt (t.lt_of_child hb)
    have hgrow : ∀ k level (l : ℕ), (∀ b : ℕ, b ∈ level → l ≤ b) → c ∈ g.shownBelow k level →
        l < c := by
      intro k
      induction k with
      | zero => intro level l _ h; cases h
      | succ k ihk =>
        intro level l hl h
        obtain ⟨q, hq, hc⟩ | h := mem_shownBelow_succ.mp h
        · exact (hl q hq).trans_lt (t.lt_of_child hc)
        · refine ihk _ l (fun b hb => ?_) h
          obtain ⟨⟨q, hq, hb⟩, -⟩ := mem_next_iff.mp hb
          exact (hl q hq).trans (t.lt_of_child hb).le
    obtain _ | m := m
    · exact absurd (hgrow _ _ a ha h) (by omega)
    · exact mem_shownBelow_succ.mpr
        ((mem_shownBelow_succ.mp h).imp_right fun h => ih h hnext (by omega))

theorem mem_visible_iff (t : g.IsTree) (hr : g.isIncluded root = true) :
    c ∈ g.visible ↔ c = root ∨ ∃ p : ℕ, p ∈ g.visible ∧ g.isIncluded p = true ∧
      c ∈ g.children p := by
  have hv : ∀ b : ℕ, b ∈ g.visible ↔ b = root ∨ b ∈ g.shownBelow g.size [root] := by
    intro b; simp [visible]
  constructor
  · intro h
    refine ((hv c).mp h).imp_right fun h => ?_
    obtain ⟨p, hp | ⟨hp, hi⟩, hc⟩ := exists_of_mem_shownBelow h
    · obtain rfl := List.mem_singleton.mp hp
      exact ⟨root, (hv _).mpr (.inl rfl), hr, hc⟩
    · exact ⟨p, (hv p).mpr (.inr hp), hi, hc⟩
  · rintro (rfl | ⟨p, hp, hi, hc⟩)
    · exact (hv _).mpr (.inl rfl)
    · have hs : c ∈ g.shownBelow (g.size + 1) [root] := by
        refine mem_shownBelow_of_child ?_ hc
        exact ((hv p).mp hp).imp List.mem_singleton.mpr fun h => ⟨h, hi⟩
      refine (hv c).mpr (.inr (t.mem_shownBelow_mono hs (a := 0) (fun b _ => b.zero_le) ?_))
      have := (t.child p c hc).1
      omega

theorem nodup_flatMap_children (t : g.IsTree) (h : level.Nodup) :
    (level.flatMap g.children).Nodup := by
  refine List.nodup_flatMap.mpr ⟨fun p _ => t.children_nodup p, ?_⟩
  refine h.imp fun {p q} hpq c hp hq => hpq ?_
  exact Option.some.inj ((t.child p c hp).2.symm.trans (t.child q c hq).2)

theorem depth_of_mem_flatMap (t : g.IsTree) {d : ℕ} (hd : ∀ p ∈ level, (g.node p).depth = d)
    (h : c ∈ level.flatMap g.children) : (g.node c).depth = d + 1 := by
  obtain ⟨p, hp, hc⟩ := List.mem_flatMap.mp h
  rw [t.depth_eq c p (t.child p c hc).2, hd p hp]

theorem nodup_shownBelow (t : g.IsTree) {d : ℕ} (hl : level.Nodup)
    (hd : ∀ p ∈ level, (g.node p).depth = d) :
    (g.shownBelow n level).Nodup ∧ ∀ c ∈ g.shownBelow n level, d < (g.node c).depth := by
  induction n generalizing level d with
  | zero => simp
  | succ n ih =>
    have hn : ∀ c ∈ level.flatMap g.children, (g.node c).depth = d + 1 :=
      fun c hc => t.depth_of_mem_flatMap hd hc
    obtain ⟨hnodup, hdeep⟩ := ih ((t.nodup_flatMap_children hl).filter g.isIncluded)
      (fun p hp => hn p (List.mem_of_mem_filter hp))
    rw [shownBelow_succ]
    refine ⟨(t.nodup_flatMap_children hl).append hnodup fun c hc hs => ?_, fun c hc => ?_⟩
    · exact absurd (hdeep c hs) (by rw [hn c hc]; exact lt_irrefl _)
    · obtain hc | hc := List.mem_append.mp hc
      · rw [hn c hc]; exact Nat.lt_succ_self d
      · exact (Nat.lt_succ_self d).trans (hdeep c hc)

theorem nodup_visible (t : g.IsTree) : g.visible.Nodup := by
  obtain ⟨hn, hd⟩ := t.nodup_shownBelow (n := g.size) (List.nodup_singleton root)
    (fun p hp => by rw [List.mem_singleton.mp hp, t.depth_root])
  refine List.nodup_cons.mpr ⟨fun h => ?_, hn⟩
  exact absurd (hd root h) (by rw [t.depth_root]; exact lt_irrefl 0)

end IsTree

end Mediation.Graph
