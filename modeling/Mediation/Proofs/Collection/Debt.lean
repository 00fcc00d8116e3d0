import Mathlib.Algebra.Order.BigOperators.Group.Finset
import Mediation.Proofs.Collection.Fade
import Mediation.Proofs.Collection.Offspring
import Mediation.Proofs.Constraint.Latitude

/-! # What a collection owes

Every node in play owes for the expansions that may still come from it: for each by which its
constraint can be narrowed, and for those of its children. A node owes nothing once it is out
of play, and no move but a displacement lets a node owe more than before. A winner that is
displaced owes one more expansion, which the newcomer has paid for if its own are no cheaper.
-/

namespace Mediation

/-- The terms of a resolution: the versions that may be chosen, the most dependencies that a
descriptor lists, the constraints that pins impose, what the sites of nodes are like, and whether
all constraints are mere recommendations. Nodes of a higher rank may have more below them. -/
structure Tariff where
  known : List Version
  width : ℕ
  pinned : Key → Constraint → Prop
  fits : Site → Prop
  soft : Prop
  rank : Site → ℕ

namespace Tariff

variable {T : Tariff} {rules : Rules} {ev : Evidence} {c d e : Constraint}

/-- Whether a constraint recommends nothing but a known version that is no moving target. -/
def Knows (T : Tariff) (c : Constraint) : Prop :=
  ∀ v, c.recommended = some v → v ∈ T.known ∧ Constraint.isOpenVersion v = false

def ceiling (T : Tariff) : ℕ := 3 * T.known.length + 2

/-- What one expansion of a node of a rank costs, with all that it may lead to. -/
def price (T : Tariff) : ℕ → ℕ
  | 0 => 1
  | n + 1 => 1 + T.width * (T.price n * (T.ceiling + 2))

/-- The most that a new node of a lower rank owes. -/
def cost (T : Tariff) : ℕ → ℕ
  | 0 => 0
  | n + 1 => T.price n * (T.ceiling + 2)

theorem price_eq (T : Tariff) (n : ℕ) : T.price n = 1 + T.width * T.cost n := by
  cases n <;> rfl

theorem price_pos (T : Tariff) (n : ℕ) : 0 < T.price n := by
  rw [price_eq]
  exact Nat.lt_of_lt_of_le Nat.one_pos (Nat.le_add_right 1 _)

theorem price_le_succ (T : Tariff) (n : ℕ) : T.width = 0 ∨ T.price n ≤ T.price (n + 1) := by
  rcases Nat.eq_zero_or_pos T.width with h | h
  · exact .inl h
  · right
    calc T.price n ≤ T.price n * (T.ceiling + 2) := Nat.le_mul_of_pos_right _ (Nat.succ_pos _)
      _ ≤ T.width * (T.price n * (T.ceiling + 2)) := Nat.le_mul_of_pos_left _ h
      _ ≤ T.price (n + 1) := Nat.le_add_left _ 1

theorem price_mono (T : Tariff) {m n : ℕ} (h : m ≤ n) : T.price m ≤ T.price n := by
  induction h with
  | refl => exact le_rfl
  | @step n h ih =>
    rcases T.price_le_succ n with hw | hn
    · have hone (k : ℕ) : T.price k = 1 := by cases k <;> simp [price, hw]
      rw [hone, hone]
    · exact ih.trans hn

theorem price_mul_le_cost (T : Tariff) {m n : ℕ} (h : m < n) :
    T.price m * (T.ceiling + 2) ≤ T.cost n := by
  cases n with
  | zero => exact absurd h (Nat.not_lt_zero m)
  | succ n => exact Nat.mul_le_mul_right _ (T.price_mono (Nat.le_of_lt_succ h))

/-- Whether a resolution is told nothing but what the terms foresee. -/
structure Governs (T : Tariff) (rules : Rules) (ev : Evidence) : Prop where
  pins : ∀ {k : Key} {pin : Pin} {c : Constraint}, rules.pins.get? k = some pin →
    pin.version = some c → T.pinned k c
  offers : ∀ {a : Coordinate} {c : Constraint} {v : Version}, ev.offers a c v → T.Knows c →
    v ∈ T.known ∧ (∀ r, c.recommended = some r → v = r) ∧
      (c.recommended = none → c.contains v = true)

theorem knows_intersect (hc : T.Knows c) (hd : T.Knows d) (h : c.intersect d = .ok e) :
    T.Knows e := by
  intro v hv
  rcases (Constraint.of_recommended_intersect h hv).1 with hv | hv
  · exact hc v hv
  · exact hd v hv

end Tariff

namespace Node

variable {T : Tariff} {rules : Rules} {ev : Evidence} {m n : Node}

/-- How many expansions of its rank a node may still owe. -/
def share (T : Tariff) (n : Node) : ℕ :=
  match n.state with
  | .pending => T.ceiling + 2
  | .included => n.constraint.latitude T.known + if n.expanded then 0 else 1
  | .omittedForConflict => n.constraint.latitude T.known + 1
  | _ => 0

/-- What a node owes while it is in play. -/
def due (T : Tariff) (n : Node) : ℕ := T.price (T.rank n.site) * n.share T

/-- Whether a node has no version but the recommended one, and no constraint but its first. -/
structure IsPlain (n : Node) : Prop where
  soft : n.declaredConstraint.isSoft = true
  constraint : n.constraint = n.declaredConstraint
  version : ∀ v, n.version = some v → n.declaredConstraint.recommended = some v

structure IsTame (T : Tariff) (ev : Evidence) (n : Node) : Prop where
  fits : T.fits n.site
  knows : T.Knows n.constraint
  declared : T.Knows n.declaredConstraint
  version : ∀ v, n.version = some v → v ∈ T.known
  plain : T.soft → n.IsPlain
  backed : n.state = .included ∨ n.state = .omittedForConflict → n.IsBacked ev

theorem due_of_trunk (h : m.trunk = n.trunk) : m.due T = n.due T :=
  (congrArg (due T) h :)

/-- To be tame a node needs no more than what it shows of its place, its constraint, its version
and its state. -/
theorem IsTame.of_view (hn : n.IsTame T ev) (hs : m.site = n.site)
    (hc : m.constraint = n.constraint) (hv : m.version = n.version)
    (hb : m.state = .included ∨ m.state = .omittedForConflict → m.IsBacked ev) :
    m.IsTame T ev := by
  have hd : m.declaredConstraint = n.declaredConstraint := congrArg Site.constraint hs
  refine ⟨hs ▸ hn.fits, hc ▸ hn.knows, hd ▸ hn.declared, hv ▸ hn.version, fun hp => ?_, hb⟩
  have h := hn.plain hp
  exact ⟨hd ▸ h.soft, by rw [hc, hd, h.constraint], by rw [hv, hd]; exact h.version⟩

theorem IsTame.of_trunk (h : m.trunk = n.trunk) (hn : n.IsTame T ev) : m.IsTame T ev := by
  have hc : n.trunk.IsTame T ev := hn.of_view rfl rfl rfl hn.backed
  rw [← h] at hc
  exact hc.of_view rfl rfl rfl hc.backed

theorem due_of_core (h : m.core = n.core) : m.due T = n.due T :=
  (congrArg (due T) h :)

theorem IsTame.of_core (h : m.core = n.core) (hn : n.IsTame T ev) : m.IsTame T ev := by
  have hc : n.core.IsTame T ev := hn.of_view rfl rfl rfl hn.backed
  rw [← h] at hc
  exact hc.of_view rfl rfl rfl hc.backed

theorem due_le (hs : m.site = n.site) (h : m.share T ≤ n.share T) : m.due T ≤ n.due T := by
  rw [due, due, hs]
  exact Nat.mul_le_mul_left _ h

theorem due_of_failed (h : n.state = .failed) : n.due T = 0 := by
  rw [due, share, h, Nat.mul_zero]

theorem latitude_le_ceiling (T : Tariff) (n : Node) :
    n.constraint.latitude T.known ≤ T.ceiling := Constraint.latitude_le _ _

theorem share_le_of_pending (h : n.state = .pending) (m : Node) : m.share T ≤ n.share T := by
  have hl := latitude_le_ceiling T m
  have hn : n.share T = T.ceiling + 2 := by rw [share, h]
  rw [hn, share]
  split <;> (try split) <;> omega

theorem latitude_lt {c d : Constraint} (hg : T.Governs rules ev) (hn : n.IsTame T ev)
    (hb : n.IsBacked ev) (h : n.constraint.intersect d = .ok c)
    (hk : Run.keepsVersion n.artifact c = false) :
    c.latitude T.known < n.constraint.latitude T.known := by
  have hlost {r : Version} (hr : n.constraint.recommended = some r)
      (hc : c.recommended = some r) : False := by
    unfold Run.keepsVersion at hk
    rcases hb with hb | ⟨v, hv, ho⟩
    · unfold Run.keepsVersion at hb
      simp only [hr] at hb
      simp only [hc, hb] at hk
      cases hk
    · obtain rfl := (hg.offers ho hn.knows).2.1 r hr
      have hs : n.artifact.selected = some v := hv
      simp [hc, hs, Version.same] at hk
  refine Constraint.latitude_lt_of_intersect h (fun r hr => ⟨(hn.knows r hr).1, ?_⟩) fun hr => ?_
  · by_contra he
    exact hlost hr (Constraint.recommended_intersect h hr (Bool.not_eq_false _ ▸ he))
  · by_cases hc : c.recommended = none
    · obtain ⟨w, hw⟩ := Option.isSome_iff_exists.mp (Collection.isSome_of_isBacked hb)
      have hs : n.artifact.selected = some w := hw
      refine .inr ⟨w, hn.version w hw, ?_, ?_⟩
      · rcases hb with hb | ⟨v, hv, ho⟩
        · simpa [Run.keepsVersion, hr, hs] using hb
        · obtain rfl : v = w := Option.some.inj (hv.symm.trans hw)
          exact (hg.offers ho hn.knows).2.2 hr
      · simpa [Run.keepsVersion, hc, hs] using hk
    · exact .inl hc

end Node

namespace Collection

open Finset

variable {T : Tariff} {rules : Rules} {ev : Evidence} {s t : Collection} {E : Finset ℕ}
  {i j x w : ℕ} {k : Key}

def owes (T : Tariff) (s : Collection) (j : NodeId) : ℕ :=
  if s.InPlay j then (s.node j).due T else 0

def debt (T : Tariff) (s : Collection) : ℕ := ∑ j ∈ range s.graph.size, s.owes T j

/-- A collection whose nodes in play keep to the terms, and whose pins are foreseen. -/
structure Tame (T : Tariff) (ev : Evidence) (s : Collection) : Prop where
  node : ∀ j : ℕ, s.InPlay j → (s.node j).IsTame T ev
  pins : ∀ (i : ℕ) (k : Key) (pin : Pin) (c : Constraint),
    (s.node i).management.get? k = some pin → pin.version = some c → T.pinned k c

/-- Whether a newcomer that displaces a winner has no lower a rank than that one. -/
def Favours (T : Tariff) (rules : Rules) (s : Collection) : Prop :=
  ∀ i x : ℕ, s.IsRival x i → i < x → (s.node x).state = .pending →
    (s.node x).version.isSome = true →
    s.elect rules (s.node x).key [min i x, max i x] = .ok x →
      T.rank (s.node i).site ≤ T.rank (s.node x).site

theorem owes_of_inPlay (h : s.InPlay j) : s.owes T j = (s.node j).due T := if_pos h

theorem owes_le_due (s : Collection) (j : ℕ) : s.owes T j ≤ (s.node j).due T := by
  unfold owes
  split
  · exact le_rfl
  · exact Nat.zero_le _

theorem owes_le (hp : t.InPlay j → s.InPlay j)
    (hd : t.InPlay j → (t.node j).due T ≤ (s.node j).due T) : t.owes T j ≤ s.owes T j := by
  by_cases h : t.InPlay j
  · rw [owes_of_inPlay h, owes_of_inPlay (hp h)]
    exact hd h
  · rw [owes, if_neg h]
    exact Nat.zero_le _

theorem debt_add_le {a : ℕ} (hs : t.graph.size = s.graph.size) (hi : i < s.graph.size)
    (hj : ∀ j ≠ i, t.owes T j ≤ s.owes T j) (ha : t.owes T i + a ≤ s.owes T i) :
    t.debt T + a ≤ s.debt T := by
  have hm := mem_range.mpr hi
  have hle : ∑ j ∈ (range s.graph.size).erase i, t.owes T j ≤
      ∑ j ∈ (range s.graph.size).erase i, s.owes T j :=
    sum_le_sum fun j h => hj j (ne_of_mem_erase h)
  have h₁ : t.owes T i + ∑ j ∈ (range s.graph.size).erase i, t.owes T j =
      ∑ j ∈ range s.graph.size, t.owes T j := add_sum_erase _ _ hm
  have h₂ : s.owes T i + ∑ j ∈ (range s.graph.size).erase i, s.owes T j =
      ∑ j ∈ range s.graph.size, s.owes T j := add_sum_erase _ _ hm
  rw [debt, debt, hs]
  omega

namespace Fades

variable (h : Fades E s t)
include h

theorem owes_le (hj : j ∉ E) : t.owes T j ≤ s.owes T j :=
  Collection.owes_le (h.inPlay j) fun hp => (Node.due_of_core (h.core j hj hp)).le

/-- What is owed does not grow if it does not for the nodes that a change is about. -/
theorem debt_le (hE : ∀ j ∈ E, t.owes T j ≤ s.owes T j) : t.debt T ≤ s.debt T := by
  rw [debt, debt, h.size]
  refine sum_le_sum fun j _ => ?_
  by_cases hj : j ∈ E
  · exact hE j hj
  · exact h.owes_le hj

theorem debt_lt (hE : ∀ j ∈ E, t.owes T j ≤ s.owes T j) (hi : i < s.graph.size)
    (hlt : t.owes T i < s.owes T i) : t.debt T < s.debt T := by
  rw [debt, debt, h.size]
  refine sum_lt_sum (fun j _ => ?_) ⟨i, mem_range.mpr hi, hlt⟩
  by_cases hj : j ∈ E
  · exact hE j hj
  · exact h.owes_le hj

theorem debt_le_of_sum (hE : E ⊆ range s.graph.size)
    (hs : ∑ j ∈ E, t.owes T j ≤ ∑ j ∈ E, s.owes T j) : t.debt T ≤ s.debt T := by
  rw [debt, debt, h.size, ← sum_sdiff hE, ← sum_sdiff hE]
  exact Nat.add_le_add (sum_le_sum fun j hj => h.owes_le (mem_sdiff.mp hj).2) hs

theorem tame (hs : s.Tame T ev) (hE : ∀ j ∈ E, t.InPlay j → (t.node j).IsTame T ev) :
    t.Tame T ev where
  node j hj := by
    by_cases hm : j ∈ E
    · exact hE j hm hj
    · exact .of_core (h.core j hm hj) (hs.node j (h.inPlay j hj))
  pins i k pin c hk hv := hs.pins i k pin c (h.management i ▸ hk) hv

end Fades

end Collection

end Mediation
