import Mediation.Proofs.Breadth.Tidy

/-! # Calm collections

A collection is calm up to a node if everything before that node is decided, and what the plain
mediation keeps is what is expanded. The encounters of the nodes from there on are those that wait
in the queue.
-/

namespace Mediation.Collection

open Relation

variable {rules : Rules} {tells : Coordinate → Option Version → Descriptor → Prop} {q : Request}
  {s t : Collection} {enc : ℕ → Encounter} {d : Descriptor} {v : Version} {st : NodeState}
  {n x : ℕ}

def keptBefore (s : Collection) (enc : ℕ → Encounter) (n : ℕ) : List Encounter :=
  ((List.range n).filter fun j => j != Graph.root && s.graph.isIncluded j).map enc

/-- The encounters of the nodes from one node on, and those kept before it. -/
def roster (s : Collection) (enc : ℕ → Encounter) (n : ℕ) : Roster :=
  ⟨(List.range' n (s.graph.size - n)).map enc, s.keptBefore enc n⟩

theorem mem_keptBefore {f : Encounter} : f ∈ s.keptBefore enc n ↔
    ∃ j < n, j ≠ Graph.root ∧ (s.node j).state = .included ∧ enc j = f := by
  simp [keptBefore, isIncluded_iff, and_assoc]

theorem keptBefore_congr {enc' : ℕ → Encounter}
    (hs : ∀ j < n, (t.node j).state = (s.node j).state) (he : ∀ j < n, enc' j = enc j) :
    t.keptBefore enc' n = s.keptBefore enc n := by
  have hf : ((List.range n).filter fun j => j != Graph.root && t.graph.isIncluded j) =
      (List.range n).filter fun j => j != Graph.root && s.graph.isIncluded j := by
    apply List.filter_congr
    intro j hj
    have hi : t.graph.isIncluded j = s.graph.isIncluded j := by
      rw [Bool.eq_iff_iff, isIncluded_iff, isIncluded_iff, hs j (List.mem_range.mp hj)]
    rw [hi]
  rw [keptBefore, hf, keptBefore]
  apply List.map_congr_left
  intro j hj
  exact he j (List.mem_range.mp (List.mem_of_mem_filter hj))

theorem keptBefore_of_le {m : ℕ} (hnm : n ≤ m)
    (hj : ∀ j : ℕ, n ≤ j → j < m → (s.node j).state ≠ .included) :
    s.keptBefore enc m = s.keptBefore enc n := by
  obtain ⟨k, rfl⟩ := Nat.exists_eq_add_of_le hnm
  rw [keptBefore, List.range_eq_range', ← List.range'_append_1, List.filter_append, Nat.zero_add]
  have hnil : ((List.range' n k).filter fun j => j != Graph.root && s.graph.isIncluded j) = [] := by
    rw [List.filter_eq_nil_iff]
    intro j hm
    rw [List.mem_range'_1] at hm
    have hstate := hj j hm.1 hm.2
    rw [Bool.and_eq_true, isIncluded_iff]
    exact fun h => hstate h.2
  rw [hnil, List.append_nil, ← List.range_eq_range', keptBefore]

theorem keptBefore_succ (hx : (s.node x).state = .included) (hr : x ≠ Graph.root) :
    s.keptBefore enc (x + 1) = s.keptBefore enc x ++ [enc x] := by
  have hi : (x != Graph.root && s.graph.isIncluded x) = true := by simp [hr, isIncluded_iff, hx]
  rw [keptBefore, List.range_succ, List.filter_append, List.filter_singleton, hi, cond_true,
    List.map_append, List.map_singleton, keptBefore]

/-- The encounters from a node on are the old ones, and then the new ones. -/
theorem map_range'_extend {es : List Encounter} {m k : ℕ} (hm : m ≤ k) :
    (List.range' m (k + es.length - m)).map (extend enc k es) =
      (List.range' m (k - m)).map enc ++ es := by
  have happ : List.range' m (k - m) ++ List.range' (m + (k - m)) es.length =
      List.range' m (k - m + es.length) := List.range'_append_1
  have hlen : k + es.length - m = k - m + es.length := by omega
  rw [hlen, ← happ, Nat.add_sub_cancel' hm, List.map_append, map_extend]
  congr 1
  apply List.map_congr_left
  intro j hj
  rw [List.mem_range'_1] at hj
  exact extend_of_lt (by omega)

/-- A tidy collection whose queue and kept encounters the plain mediation comes to. -/
structure Calm (q : Request) (tells : Coordinate → Option Version → Descriptor → Prop)
    (s : Collection) (enc : ℕ → Encounter) (n : ℕ) : Prop extends s.Tidy enc where
  pos : 0 < n
  le : n ≤ s.graph.size
  expanded : ∀ j : ℕ, (s.node j).expanded = true ↔ j < n ∧ (s.node j).state = .included
  decided : ∀ j < n, (s.node j).state ≠ .pending
  chain : ReflTransGen (Roster.Pops q.management tells) ⟨q.direct, []⟩ (s.roster enc n)

namespace Calm

variable (h : s.Calm q tells enc n)
include h

theorem lt_of_expanded (hx : (s.node x).expanded = true) : x < n := ((h.expanded x).mp hx).1

theorem le_of_pending (hp : (s.node x).state = .pending) : n ≤ x := by
  by_contra hn
  exact h.decided x (not_le.mp hn) hp

theorem seat (hs : s.Sound) (hp : (s.node x).state = .pending) (ht : Seats x v st s t)
    (hst : st = .included ∧ (enc x).version = some v ∨ st = .omittedForConflict ∧
      ∃ w < x, w ≠ Graph.root ∧ (s.node w).state = .included ∧
        (s.node w).key = (s.node x).key) :
    t.Calm q tells enc n ∧ t.keptBefore enc n = s.keptBefore enc n := by
  have hnx := h.le_of_pending hp
  have hstate : ∀ j < n, (t.node j).state = (s.node j).state := by
    intro j hj
    rw [ht.state, if_neg (hj.trans_le hnx).ne]
  have hkept : t.keptBefore enc n = s.keptBefore enc n :=
    keptBefore_congr hstate fun _ _ => rfl
  refine ⟨?_, hkept⟩
  exact {
    toTidy := h.toTidy.seat hs hp ht hst
    pos := h.pos
    le := h.le.trans_eq ht.size.symm
    expanded j := by
      rw [ht.view Node.expanded (fun _ => rfl) (fun _ => rfl) j, h.expanded]
      exact and_congr_right fun hj => by rw [hstate j hj]
    decided j hj := by
      rw [hstate j hj]
      exact h.decided j hj
    chain := by
      have hr : t.roster enc n = s.roster enc n := by
        rw [roster, roster, ht.size, hkept]
      exact hr ▸ h.chain }

/-- What lies before a node that is not yet expanded has been dropped, if it is decided. -/
theorem drops {m j : ℕ}
    (hd : ∀ j : ℕ, n ≤ j → j < m → (s.node j).state ≠ .pending ∧ (s.node j).state ≠ .included)
    (hm : m ≤ s.graph.size) (hnj : n ≤ j) (hjm : j < m) :
    Roster.Drops (s.keptBefore enc n) (enc j) := by
  obtain ⟨hp, hi⟩ := hd j hnj hjm
  have hr : j ≠ Graph.root := (h.pos.trans_le hnj).ne'
  have hj := hjm.trans_le hm
  cases hst : (s.node j).state with
  | pending => exact absurd hst hp
  | included => exact absurd hst hi
  | failed => exact absurd hst (h.unfailed j hj)
  | omittedForCycle => exact .inl ((h.cycle j hr hj).mp hst)
  | omittedForConflict =>
    obtain ⟨w, hwj, hwr, hwi, hwk⟩ := h.beaten j hst
    have hwn : w < n := by
      by_contra hn
      exact (hd w (not_lt.mp hn) (hwj.trans hjm)).2 hwi
    refine .inr ⟨enc w, mem_keptBefore.mpr ⟨w, hwn, hwr, hwi, rfl⟩, ?_⟩
    rw [← (h.mirrors w hwr (hwj.trans hj)).key, ← (h.mirrors j hr hj).key]
    exact hwk

theorem pops_drops {m : ℕ} (hnm : n ≤ m) (hm : m ≤ s.graph.size)
    (hd : ∀ j : ℕ, n ≤ j → j < m → (s.node j).state ≠ .pending ∧ (s.node j).state ≠ .included) :
    ReflTransGen (Roster.Pops q.management tells) ⟨q.direct, []⟩ (s.roster enc m) := by
  have hsplit : (List.range' n (s.graph.size - n)).map enc =
      (List.range' n (m - n)).map enc ++ (List.range' m (s.graph.size - m)).map enc := by
    rw [← List.map_append]
    congr 1
    have happ : List.range' n (m - n) ++ List.range' (n + (m - n)) (s.graph.size - m) =
        List.range' n (m - n + (s.graph.size - m)) := List.range'_append_1
    rw [Nat.add_sub_cancel' hnm] at happ
    rw [happ]
    congr 1
    omega
  have hkept : s.keptBefore enc m = s.keptBefore enc n :=
    keptBefore_of_le hnm fun j hnj hjm => (hd j hnj hjm).2
  refine h.chain.trans ?_
  rw [roster, roster, hsplit, hkept]
  apply Roster.pops_drops
  intro e he
  obtain ⟨j, hj, rfl⟩ := List.mem_map.mp he
  rw [List.mem_range'_1] at hj
  exact h.drops hd hm hj.1 (by omega)

theorem lt_of_parent (hs : s.Sound) {j p : ℕ} (hp : (s.node j).parent = some p) : p < n := by
  have hjr : j ≠ Graph.root := by
    rintro rfl
    exact absurd (hp.symm.trans hs.tree.parent_root) (Option.some_ne_none p)
  obtain ⟨q, hq, -, hc⟩ := h.hangs j hjr (Graph.lt_size_of_parent hp)
  obtain rfl : p = q := Option.some.inj (hp.symm.trans hq)
  apply h.lt_of_expanded
  by_contra hn
  rw [hs.fresh p (Bool.eq_false_iff.mpr hn)] at hc
  cases hc

theorem not_drops (hs : s.Sound) (hi : (s.node x).state = .included) (hx : n ≤ x) :
    ¬ Roster.Drops (s.keptBefore enc n) (enc x) := by
  have hxs : x < s.graph.size := Graph.lt_size_of_isIncluded (isIncluded_iff.mpr hi)
  have hr : x ≠ Graph.root := (h.pos.trans_le hx).ne'
  rintro (hc | ⟨f, hf, hk⟩)
  · have hcycle := (h.cycle x hr hxs).mpr hc
    rw [hi] at hcycle
    cases hcycle
  · obtain ⟨j, hj, hjr, hji, rfl⟩ := mem_keptBefore.mp hf
    have hjx := hj.trans_le hx
    rw [← (h.mirrors j hjr (hjx.trans hxs)).key, ← (h.mirrors x hr hxs).key] at hk
    exact hjx.ne (hs.unique j x hjr hr hji hi hk)

/-- The next included node is kept, and what the descriptor adds waits behind the others. -/
theorem pops_keep (hs : s.Sound) (hi : (s.node x).state = .included) (hx : n ≤ x)
    (hd : ∀ j : ℕ, n ≤ j → j < x → (s.node j).state ≠ .pending ∧ (s.node j).state ≠ .included)
    (ht : tells (s.node x).artifact.coordinate (s.node x).version d) :
    ReflTransGen (Roster.Pops q.management tells) ⟨q.direct, []⟩
      ⟨(List.range' (x + 1) (s.graph.size - (x + 1))).map enc ++
        (enc x).survivors q.management d, s.keptBefore enc n ++ [enc x]⟩ := by
  have hxs : x < s.graph.size := Graph.lt_size_of_isIncluded (isIncluded_iff.mpr hi)
  have hr : x ≠ Graph.root := (h.pos.trans_le hx).ne'
  have htell : tells (enc x).coordinate (enc x).version d := by
    rw [← (h.mirrors x hr hxs).coordinate, ← h.version x hr hi]
    exact ht
  have hkept : s.keptBefore enc x = s.keptBefore enc n :=
    keptBefore_of_le hx fun j hnj hjx => (hd j hnj hjx).2
  have hsucc : s.graph.size - x = s.graph.size - (x + 1) + 1 := by omega
  have hroster : s.roster enc x =
      ⟨enc x :: (List.range' (x + 1) (s.graph.size - (x + 1))).map enc, s.keptBefore enc n⟩ := by
    rw [roster, hsucc, List.range'_succ, List.map_cons, hkept]
  have hchain := h.pops_drops hx hxs.le hd
  rw [hroster] at hchain
  exact hchain.tail (.keep (h.not_drops hs hi hx) htell)

theorem expand (hs : s.Sound) (hi : (s.node x).state = .included) (hx : n ≤ x)
    (hd : ∀ j : ℕ, n ≤ j → j < x → (s.node j).state ≠ .pending ∧ (s.node j).state ≠ .included)
    (hpins : rules.pins = q.management) (hf : rules.filter = none)
    (ht : tells (s.node x).artifact.coordinate (s.node x).version d) :
    (s.expand rules x d).2.Calm q tells
        (extend enc s.graph.size ((enc x).survivors q.management d)) (x + 1) ∧
      (s.expand rules x d).2.keptBefore
          (extend enc s.graph.size ((enc x).survivors q.management d)) (x + 1) =
        s.keptBefore enc n ++ [enc x] := by
  have hxs : x < s.graph.size := Graph.lt_size_of_isIncluded (isIncluded_iff.mpr hi)
  have hr : x ≠ Graph.root := (h.pos.trans_le hx).ne'
  have hnew : (s.node x).expanded = false := by
    rw [Bool.eq_false_iff]
    exact fun he => absurd (h.lt_of_expanded he) (not_lt.mpr hx)
  have hgrow := grows_expand rules hs.tree hxs (hs.fresh x hnew) d
  set es := (enc x).survivors q.management d with hes
  have hsuits : List.Forall₂ (Encounter.Suits (s.opened x d).graph x)
      (d.dependencies.filterMap (childOf? rules (s.opened x d).graph x)) es := by
    rw [hes, Encounter.survivors, ← hpins]
    exact suits_survivors (h.mirrors x hr hxs) hs.tree hxs hr hf d.dependencies
  obtain ⟨htidy, hsize⟩ := h.toTidy.expand hs hi hnew
    (fun _ _ hp => ((h.lt_of_parent hs hp).trans_le hx).le) hsuits
  have hkept : (s.expand rules x d).2.keptBefore (extend enc s.graph.size es) (x + 1) =
      s.keptBefore enc n ++ [enc x] := by
    have hxs' : ∀ j < x + 1, j < s.graph.size := fun j hj => (Nat.lt_succ_iff.mp hj).trans_lt hxs
    rw [keptBefore_congr (fun j hj => hgrow.state (hxs' j hj)) fun j hj => extend_of_lt (hxs' j hj),
      keptBefore_succ hi hr, keptBefore_of_le hx fun j hnj hjx => (hd j hnj hjx).2]
  have hexpanded (j : ℕ) : ((s.expand rules x d).2.node j).expanded = true ↔
      j < x + 1 ∧ ((s.expand rules x d).2.node j).state = .included := by
    constructor
    · intro hj
      rcases hgrow.of_expanded hj with rfl | hj
      · exact ⟨Nat.lt_succ_self j, (hgrow.state hxs).trans hi⟩
      · obtain ⟨hjn, hji⟩ := (h.expanded j).mp hj
        have hjx := hjn.trans_le hx
        exact ⟨hjx.trans (Nat.lt_succ_self x), (hgrow.state (hjx.trans hxs)).trans hji⟩
    · rintro ⟨hjx, hji⟩
      have hjs := (Nat.lt_succ_iff.mp hjx).trans_lt hxs
      rw [hgrow.state hjs] at hji
      rw [expanded_expand hxs d hjs]
      by_cases hjn : j < n
      · simp [(h.expanded j).mpr ⟨hjn, hji⟩]
      · rcases Nat.lt_succ_iff_lt_or_eq.mp hjx with hjx | rfl
        · exact absurd hji (hd j (not_lt.mp hjn) hjx).2
        · simp
  refine ⟨?_, hkept⟩
  exact {
    toTidy := htidy
    pos := Nat.succ_pos x
    le := by rw [hsize]; omega
    expanded := hexpanded
    decided j hj := by
      rw [hgrow.state (by omega)]
      rcases Nat.lt_succ_iff_lt_or_eq.mp hj with hjx | rfl
      · by_cases hjn : j < n
        · exact h.decided j hjn
        · exact (hd j (not_lt.mp hjn) hjx).1
      · rw [hi]
        decide
    chain := by
      rw [roster, hkept, hsize, map_range'_extend (Nat.succ_le_of_lt hxs)]
      exact h.pops_keep hs hi hx hd ht }

theorem finish (hs : s.Sound) (hp : ∀ j : ℕ, (s.node j).state ≠ .pending)
    (hx : ∀ j : ℕ, (s.node j).state = .included → (s.node j).expanded = true) :
    ReflTransGen (Roster.Pops q.management tells) ⟨q.direct, []⟩ ⟨[], s.keptBefore enc n⟩ ∧
      s.graph.included.map (fun i => ((s.node i).artifact.coordinate, (s.node i).version)) =
        (s.keptBefore enc n).map fun e => (e.coordinate, e.version) := by
  have hd : ∀ j : ℕ, n ≤ j → j < s.graph.size →
      (s.node j).state ≠ .pending ∧ (s.node j).state ≠ .included := fun j hnj _ =>
    ⟨hp j, fun hi => absurd (h.lt_of_expanded (hx j hi)) (not_lt.mpr hnj)⟩
  have hall : s.keptBefore enc s.graph.size = s.keptBefore enc n :=
    keptBefore_of_le h.le fun j hnj hj => (hd j hnj hj).2
  constructor
  · have hend := h.pops_drops h.le le_rfl hd
    rw [roster, Nat.sub_self, hall] at hend
    exact hend
  · have hvisible : s.graph.visible = List.range s.graph.size := by
      apply h.orderly.visible_eq_range hs.tree (isIncluded_iff.mpr hs.root_included)
      intro i hr hi
      obtain ⟨p, -, hpi, hc⟩ := h.hangs i hr hi
      exact ⟨p, isIncluded_iff.mpr hpi, (children_eq s p).symm ▸ hc⟩
    rw [← hall, keptBefore, Graph.included, hvisible, List.map_map]
    apply List.map_congr_left
    intro j hj
    obtain ⟨hjs, hj⟩ := List.mem_filter.mp hj
    rw [Bool.and_eq_true, bne_iff_ne, isIncluded_iff] at hj
    have hm := h.mirrors j hj.1 (List.mem_range.mp hjs)
    exact congrArg₂ Prod.mk hm.coordinate (h.version j hj.1 hj.2)

end Calm

theorem tidy_start (root : Coordinate) (v : Version) (pins : Management) (enc : ℕ → Encounter) :
    (start root v pins).Tidy enc := by
  have hlt {j : ℕ} (hj : j < (start root v pins).graph.size) : j = Graph.root :=
    Nat.lt_one_iff.mp hj
  have hnode (j : ℕ) : (start root v pins).node j = default ∨ j = Graph.root := by
    by_cases hj : j < (start root v pins).graph.size
    · exact .inr (hlt hj)
    · exact .inl (node_of_size_le (not_lt.mp hj))
  have hparent (j : ℕ) : ((start root v pins).node j).parent = none := by
    rcases hnode j with hj | rfl
    · rw [hj]; rfl
    · rfl
  have hstate (j : ℕ) : ((start root v pins).node j).state ≠ .omittedForConflict := by
    rcases hnode j with hj | rfl
    · rw [hj]; decide
    · exact nofun
  exact {
    mirrors := fun j hr hj => absurd (hlt hj) hr
    hangs := fun j hr hj => absurd (hlt hj) hr
    inner j hj := by
      rcases hnode j with hn | rfl
      · rw [hn] at hj
        exact absurd hj (by decide)
      · exact absurd hj (by change ¬ 2 ≤ 0; decide)
    cycle := fun j hr hj => absurd (hlt hj) hr
    unfailed j hj := by
      rw [hlt hj]
      exact nofun
    beaten := fun j hj => absurd hj (hstate j)
    version j hr hj := by
      rw [(hnode j).resolve_right hr] at hj
      cases hj
    orderly := by
      constructor
      · intro i j p q hp
        exact absurd (hp.symm.trans (hparent i)) nofun
      · intro p
        rw [children_eq]
        rcases hnode p with hp | rfl
        · rw [hp]; exact .nil
        · exact .nil
    requeue := by rfl
    problems := by rfl }

theorem calm_start (hs : (start q.root q.version q.management).Sound) (hf : rules.filter = none) :
    ∃ enc, ((start q.root q.version q.management).expand rules Graph.root
        ⟨q.dependencies, q.management⟩).2.Calm q tells enc 1 ∧
      ((start q.root q.version q.management).expand rules Graph.root
        ⟨q.dependencies, q.management⟩).2.keptBefore enc 1 = [] := by
  have hroot : Graph.root < (start q.root q.version q.management).graph.size := Nat.one_pos
  have hparent (j p : ℕ) (hp : ((start q.root q.version q.management).node j).parent = some p) :
      p ≤ Graph.root := by
    have hj : j < 1 := Graph.lt_size_of_parent hp
    have hlt := hs.tree.lt_of_parent hp
    omega
  have hnone : ∀ enc, ((start q.root q.version q.management).expand rules Graph.root
      ⟨q.dependencies, q.management⟩).2.keptBefore enc 1 = [] := fun _ => rfl
  have hsuits : List.Forall₂ _ _ q.direct :=
    suits_direct q.root q.version q.management ⟨q.dependencies, q.management⟩ hf q.dependencies
  let enc : ℕ → Encounter := fun _ => ⟨q.root, .soft q.version, .compile, [], [], []⟩
  obtain ⟨htidy, hsize⟩ := (tidy_start q.root q.version q.management enc).expand hs
    hs.root_included rfl hparent hsuits
  have hgrow := grows_expand rules hs.tree hroot rfl ⟨q.dependencies, q.management⟩
  have hstate : (((start q.root q.version q.management).expand rules Graph.root
      ⟨q.dependencies, q.management⟩).2.node Graph.root).state = .included := hgrow.state hroot
  have hexpanded (j : ℕ) : (((start q.root q.version q.management).expand rules Graph.root
      ⟨q.dependencies, q.management⟩).2.node j).expanded = true ↔
      j < 1 ∧ (((start q.root q.version q.management).expand rules Graph.root
        ⟨q.dependencies, q.management⟩).2.node j).state = .included := by
    constructor
    · intro hj
      rcases hgrow.of_expanded hj with rfl | hj
      · exact ⟨Nat.one_pos, hstate⟩
      · have hlt : j < 1 := by
          by_contra hn
          rw [node_of_size_le (not_lt.mp hn)] at hj
          cases hj
        obtain rfl : j = Graph.root := Nat.lt_one_iff.mp hlt
        cases hj
    · rintro ⟨hj, -⟩
      obtain rfl : j = Graph.root := Nat.lt_one_iff.mp hj
      exact (expanded_expand hroot _ hroot).trans rfl
  refine ⟨extend enc (start q.root q.version q.management).graph.size q.direct, ?_, hnone _⟩
  exact {
    toTidy := htidy
    pos := Nat.one_pos
    le := by
      rw [hsize]
      exact Nat.le_add_right 1 _
    expanded := hexpanded
    decided j hj := by
      obtain rfl : j = Graph.root := Nat.lt_one_iff.mp hj
      rw [hstate]
      decide
    chain := by
      have hone : 1 ≤ (start q.root q.version q.management).graph.size := le_rfl
      rw [roster, hnone, hsize, map_range'_extend hone]
      exact .refl }

end Mediation.Collection
