import Mediation.Digraph
import Mathlib.Data.Finset.Card
import Mathlib.Logic.Relation

/-! # Walks

A walk that has room for every vertex leaves each vertex that its start leads to, and
each just once. What was left leads to what was left before, or back to a vertex that
is still open; this survives in the order in which the vertices are left.
-/

namespace Mediation.Digraph

open Relation

variable {d : Digraph} {v w : ℕ}

def Leads (d : Digraph) : ℕ → ℕ → Prop := ReflTransGen fun v w => w ∈ d.successors v

/-- No vertex is listed twice, and all successors are vertices. -/
structure IsClosed (d : Digraph) : Prop where
  nodup : d.vertices.Nodup
  successors : ∀ v, ∀ w ∈ d.successors v, w ∈ d.vertices

namespace Leads

@[simp] theorem refl (v : ℕ) : d.Leads v v := ReflTransGen.refl

theorem step (h : w ∈ d.successors v) : d.Leads v w := ReflTransGen.single h

theorem trans {u : ℕ} (huv : d.Leads u v) (hvw : d.Leads v w) : d.Leads u w :=
  ReflTransGen.trans huv hvw

/-- What contains the start and the successors of all it contains has all that is led to. -/
theorem mem_of_closed {P : ℕ → Prop} (h : d.Leads v w) (hv : P v)
    (hc : ∀ x, P x → ∀ y ∈ d.successors x, P y) : P w := by
  induction h with
  | refl => exact hv
  | tail _ hy ih => exact hc _ ih _ hy

theorem mem_vertices (hd : d.IsClosed) (h : d.Leads v w) (hv : v ∈ d.vertices) : w ∈ d.vertices :=
  h.mem_of_closed hv fun x _ => hd.successors x

end Leads

section Listed

variable {vs : List ℕ} {f : ℕ → List ℕ}

@[simp] theorem vertices_map : (⟨vs.map fun v => (v, f v)⟩ : Digraph).vertices = vs := by
  simp [vertices, Function.comp_def]

theorem successors_map (h : v ∈ vs) :
    (⟨vs.map fun v => (v, f v)⟩ : Digraph).successors v = f v := by
  induction vs with
  | nil => cases h
  | cons u vs ih =>
    by_cases hu : v = u
    · simp [successors, hu]
    · have hn : (v == u) = false := by simpa using hu
      simpa [successors, List.lookup_cons, hn] using ih (List.mem_of_ne_of_mem hu h)

theorem successors_eq_nil (h : v ∉ d.vertices) : d.successors v = [] := by
  have hn : d.adjacency.lookup v = none := by
    rw [List.lookup_eq_none_iff]
    rintro ⟨u, us⟩ hm
    have hu : u ∈ d.vertices := List.mem_map_of_mem hm
    simpa using fun he : v = u => h (he ▸ hu)
  simp [successors, hn]

end Listed

def unseen (d : Digraph) (w : Visits) : Finset ℕ := d.vertices.toFinset \ w.entered.toFinset

theorem card_unseen_le {w w' : Visits} (h : ∀ v ∈ w.entered, v ∈ w'.entered) :
    (d.unseen w').card ≤ (d.unseen w).card := by
  apply Finset.card_le_card
  intro x hx
  simp only [unseen, Finset.mem_sdiff, List.mem_toFinset] at hx ⊢
  exact ⟨hx.1, fun hw => hx.2 (h x hw)⟩

theorem card_unseen_enter {w : Visits} {l : List ℕ} (hv : v ∈ d.vertices) (hn : v ∉ w.entered) :
    (d.unseen ⟨v :: w.entered, l⟩).card < (d.unseen w).card := by
  have he : d.unseen ⟨v :: w.entered, l⟩ = (d.unseen w).erase v := by
    simp [unseen, Finset.sdiff_insert]
  rw [he]
  exact Finset.card_erase_lt_of_mem (by simp [unseen, hv, hn])

/-- A walk that entered the vertices of a path and did not leave them yet, while it left all
others that it entered. -/
structure Underway (d : Digraph) (path : List ℕ) (w : Visits) : Prop where
  entered : ∀ x, x ∈ w.entered ↔ x ∈ path ∨ x ∈ w.left
  apart : ∀ x ∈ path, x ∉ w.left
  nodup : w.left.Nodup
  closed : ∀ x ∈ w.left, ∀ y ∈ d.successors x, y ∈ w.left ∨ y ∈ path
  /-- What leads out of the vertices left up to one of them leads back to this one. -/
  back : ∀ v l, v :: l <:+ w.left → ∀ x ∈ v :: l, ∀ y ∈ d.successors x, y ∈ v :: l ∨ d.Leads y v

/-- What a walk comes to when it has to enter some vertices. -/
structure Arrives (d : Digraph) (path vs : List ℕ) (w w' : Visits) : Prop where
  underway : d.Underway path w'
  entered : ∀ v ∈ vs, v ∈ w'.entered
  mono : ∀ v ∈ w.entered, v ∈ w'.entered

namespace Underway

variable {path vs : List ℕ} {s : Visits}

theorem start : d.Underway [] ⟨[], []⟩ where
  entered := by simp
  apart := by simp
  nodup := .nil
  closed := by simp
  back := by simp

theorem enter (h : d.Underway path s) (hv : v ∉ s.entered) :
    d.Underway (v :: path) ⟨v :: s.entered, s.left⟩ where
  entered x := by simp [h.entered x, or_assoc]
  apart x hx := by
    rcases List.mem_cons.mp hx with rfl | hx
    · exact fun hl => hv ((h.entered x).mpr (.inr hl))
    · exact h.apart x hx
  nodup := h.nodup
  closed x hx y hy := (h.closed x hx y hy).imp_right (List.mem_cons_of_mem v)
  back := h.back

theorem leave (h : d.Underway (v :: path) s) (hv : v ∉ path)
    (hs : ∀ w ∈ d.successors v, w ∈ s.entered) (hp : ∀ x ∈ path, d.Leads x v) :
    d.Underway path ⟨s.entered, v :: s.left⟩ := by
  have hout : ∀ x ∈ v :: s.left, ∀ y ∈ d.successors x, y ∈ v :: s.left ∨ y ∈ path := by
    intro x hx y hy
    have hy : y ∈ s.left ∨ y ∈ v :: path := by
      rcases List.mem_cons.mp hx with rfl | hx
      · exact ((h.entered y).mp (hs y hy)).symm
      · exact h.closed x hx y hy
    simp only [List.mem_cons] at hy ⊢
    tauto
  exact {
    entered x := by
      rw [h.entered x]
      simp only [List.mem_cons]
      tauto
    apart := by
      rintro x hx hl
      rcases List.mem_cons.mp hl with rfl | hl
      · exact hv hx
      · exact h.apart x (List.mem_cons_of_mem v hx) hl
    nodup := h.nodup.cons (h.apart v List.mem_cons_self)
    closed := hout
    back u l hl := by
      rcases List.suffix_cons_iff.mp hl with he | hl
      · obtain ⟨rfl, rfl⟩ := List.cons_eq_cons.mp he
        exact fun x hx y hy => (hout x hx y hy).imp_right (hp y)
      · exact h.back u l hl }

theorem pass (h : d.Underway path s) (hv : v ∈ s.entered) : d.Arrives path [v] s s :=
  ⟨h, List.forall_mem_singleton.mpr hv, fun _ => id⟩

/-- Each vertex of a list in turn, when every walk from one of them arrives. -/
theorem foldl {walk : Visits → ℕ → Visits} {room : ℕ}
    (hw : ∀ v ∈ vs, ∀ s, d.Underway path s → (d.unseen s).card ≤ room →
      d.Arrives path [v] s (walk s v))
    (h : d.Underway path s) (hr : (d.unseen s).card ≤ room) :
    d.Arrives path vs s (vs.foldl walk s) := by
  induction vs generalizing s with
  | nil => exact ⟨h, nofun, fun _ => id⟩
  | cons v vs ih =>
    have ha := hw v List.mem_cons_self s h hr
    have hb := ih (fun u hu => hw u (List.mem_cons_of_mem v hu)) ha.underway
      ((card_unseen_le ha.mono).trans hr)
    refine ⟨hb.underway, ?_, fun x hx => hb.mono x (ha.mono x hx)⟩
    exact List.forall_mem_cons.mpr ⟨hb.mono v (ha.entered v List.mem_cons_self), hb.entered⟩

theorem visit (hd : d.IsClosed) {room : ℕ} (h : d.Underway path s) (hv : v ∈ d.vertices)
    (hp : ∀ x ∈ path, d.Leads x v) (hr : (d.unseen s).card ≤ room) :
    d.Arrives path [v] s (d.visit room s v) := by
  induction room generalizing path s v with
  | zero =>
    have hn : v ∉ d.unseen s := by
      rw [Finset.card_eq_zero.mp (Nat.le_zero.mp hr)]
      exact Finset.notMem_empty v
    have he : v ∈ s.entered := by simpa [unseen, hv] using hn
    exact h.pass he
  | succ room ih =>
    by_cases he : v ∈ s.entered
    · simpa [Digraph.visit, he] using h.pass he
    · have hlt : (d.unseen ⟨v :: s.entered, s.left⟩).card < (d.unseen s).card :=
        card_unseen_enter hv he
      have hpath : ∀ u ∈ d.successors v, ∀ x ∈ v :: path, d.Leads x u := by
        intro u hu x hx
        rcases List.mem_cons.mp hx with rfl | hx
        · exact .step hu
        · exact (hp x hx).trans (.step hu)
      have ha : d.Arrives (v :: path) (d.successors v) ⟨v :: s.entered, s.left⟩
          ((d.successors v).foldl (d.visit room) ⟨v :: s.entered, s.left⟩) := by
        have hroom : (d.unseen ⟨v :: s.entered, s.left⟩).card ≤ room := by omega
        refine foldl (fun u hu t ht hr => ?_) (h.enter he) hroom
        exact ih ht (hd.successors v u hu) (hpath u hu) hr
      have hvp : v ∉ path := fun hm => he ((h.entered v).mpr (.inl hm))
      simp only [Digraph.visit, List.contains_eq_mem, he, decide_false, Bool.false_eq_true,
        if_false]
      refine ⟨ha.underway.leave hvp ha.entered hp, ?_, fun x hx => ?_⟩
      · simpa using ha.mono v List.mem_cons_self
      · exact ha.mono x (List.mem_cons_of_mem v hx)

theorem visitAll (hd : d.IsClosed) (hvs : ∀ v ∈ vs, v ∈ d.vertices) :
    d.Arrives [] vs ⟨[], []⟩ (d.visitAll vs) := by
  have hr : (d.unseen ⟨[], []⟩).card ≤ d.adjacency.length + 1 := by
    have := List.toFinset_card_le d.vertices
    simp only [unseen, List.toFinset_nil, Finset.sdiff_empty]
    simp only [vertices, List.length_map] at this ⊢
    omega
  exact foldl (fun v hv _ hs hr => hs.visit hd (hvs v hv) nofun hr) .start hr

end Underway

section Sound

variable {P : ℕ → Prop} (hP : ∀ x, P x → ∀ y ∈ d.successors x, P y)
include hP

/-- A walk from a vertex of a closed set leaves no vertex outside the set. -/
theorem left_visit {room : ℕ} {s : Visits} (hv : P v) (hs : ∀ x ∈ s.left, P x) :
    ∀ x ∈ (d.visit room s v).left, P x := by
  induction room generalizing s v with
  | zero => exact hs
  | succ room ih =>
    by_cases he : v ∈ s.entered
    · simpa [visit, he] using hs
    · have hfold : ∀ x ∈ ((d.successors v).foldl (d.visit room) ⟨v :: s.entered, s.left⟩).left,
          P x :=
        List.foldlRecOn (motive := fun s : Visits => ∀ x ∈ s.left, P x) _ _ hs
          fun _ hs u hu => ih (hP v hv u hu) hs
      simpa [visit, he, hv] using hfold

theorem left_visitAll {vs : List ℕ} (hvs : ∀ v ∈ vs, P v) :
    ∀ x ∈ (d.visitAll vs).left, P x :=
  List.foldlRecOn (motive := fun s : Visits => ∀ x ∈ s.left, P x) _ _ nofun
    fun _ hs v hv => left_visit hP (hvs v hv) hs

end Sound

theorem mem_reachable_iff (hd : d.IsClosed) (hv : v ∈ d.vertices) :
    w ∈ d.reachable v ↔ d.Leads v w := by
  constructor
  · exact left_visitAll (P := d.Leads v) (fun x hx y hy => hx.trans (.step hy)) (by simp) w
  · intro h
    have hvs : ∀ u ∈ [v], u ∈ d.vertices := List.forall_mem_singleton.mpr hv
    have ha := Underway.visitAll hd hvs
    have hin : v ∈ (d.visitAll [v]).left := by
      simpa using (ha.underway.entered v).mp (ha.entered v List.mem_cons_self)
    refine h.mem_of_closed hin fun x hx y hy => ?_
    exact (ha.underway.closed x hx y hy).resolve_right List.not_mem_nil

theorem left_perm (hd : d.IsClosed) : (d.visitAll d.vertices).left.Perm d.vertices := by
  have ha := Underway.visitAll hd fun v (hv : v ∈ d.vertices) => hv
  refine (List.perm_ext_iff_of_nodup ha.underway.nodup hd.nodup).mpr fun x => ⟨?_, fun hx => ?_⟩
  · exact left_visitAll (P := (· ∈ d.vertices)) (fun x _ => hd.successors x) (fun _ => id) x
  · simpa using (ha.underway.entered x).mp (ha.entered x hx)

end Mediation.Digraph
