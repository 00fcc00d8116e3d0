import Mediation.Proofs.Constraint.Selection
import Mediation.Proofs.Resolution.Nearest
import Mediation.Proofs.Resolution.Range
import Mediation.Proofs.Run.Encounter

/-! # What is built anew

A winner that is narrowed with a newcomer loses what is below it if it moves to another version.
Whether it has to move is decided before a moving target is made concrete. So a winner that ends
with the version that it had is left alone, unless its constraint has come to recommend a moving
target that it was neither declared with nor has as its version.
-/

namespace Mediation

/-- A version that is offered where another one cannot be kept differs from it, unless a moving
target is recommended. -/
theorem Source.Offers.isMoving {σ : Type} {src : Source σ} {st : σ} {k : Coordinate}
    {c : Constraint} {a : Artifact} {v w : Version} (h : src.Offers st k c w)
    (hk : Run.keepsVersion a c = false) (hv : a.selected = some v) (hs : v.same w = true) :
    c.IsMoving := by
  rw [Run.keepsVersion, hv] at hk
  cases h with
  | recommended hr _ =>
    rw [hr] at hk
    simp [Version.same_symm hs] at hk
  | concrete hr ho _ _ => exact ⟨_, hr, ho⟩
  | listed hr _ _ hsel =>
    rw [hr] at hk
    have hc : c.contains v = true :=
      Constraint.contains_of_same (Version.same_symm hs) (Constraint.of_select_eq_ok hsel).2
    have hk : c.contains v = false := hk
    rw [hc] at hk
    cases hk

namespace Collection

variable {rules : Rules} {s t u : Collection} {current x : ℕ} {c : Constraint} {e : Event}
  {choice : Option Version}

/-- A change that gives a winner another constraint at most, and changes no other node but a
newcomer, which has the children that it had. -/
structure Intact (current x : NodeId) (s t : Collection) : Prop where
  size : t.graph.size = s.graph.size
  contenders : t.contenders = s.contenders
  requeue : t.requeue = s.requeue
  winner : ∃ c, t.node current = { s.node current with constraint := c }
  newcomer : (t.node x).children = (s.node x).children ∧ (t.node x).expanded = (s.node x).expanded
  others : ∀ j : ℕ, j ≠ current → j ≠ x → t.node j = s.node j

namespace Intact

theorem refl (current x : NodeId) (s : Collection) : Intact current x s s :=
  ⟨rfl, rfl, rfl, ⟨_, rfl⟩, ⟨rfl, rfl⟩, fun _ _ _ => rfl⟩

theorem trans (h : Intact current x s t) (h' : Intact current x t u) : Intact current x s u where
  size := h'.size.trans h.size
  contenders := h'.contenders.trans h.contenders
  requeue := h'.requeue.trans h.requeue
  winner := by
    obtain ⟨c, hc⟩ := h.winner
    obtain ⟨c', hc'⟩ := h'.winner
    exact ⟨c', by rw [hc', hc]⟩
  newcomer := ⟨h'.newcomer.1.trans h.newcomer.1, h'.newcomer.2.trans h.newcomer.2⟩
  others j hc hx := (h'.others j hc hx).trans (h.others j hc hx)

variable (hne : x ≠ current)
include hne

theorem concede : Intact current x s (s.concede x c e choice) where
  size := (sameShape_concede s x c e choice).size
  contenders := (sameShape_concede s x c e choice).contenders
  requeue := requeue_concede
  winner := ⟨_, node_concede_of_ne hne.symm⟩
  newcomer := ⟨(sameShape_concede s x c e choice).children x,
    (sameShape_concede s x c e choice).expanded x⟩
  others _ _ hx := node_concede_of_ne hx

theorem constrain (hi : current < s.graph.size) (c : Constraint) :
    Intact current x s (s.constrain current c) where
  size := (sameShape_constrain s current c).size
  contenders := rfl
  requeue := rfl
  winner := ⟨c, node_update_self hi⟩
  newcomer := by
    rw [Collection.constrain, node_update_of_ne hne.symm]
    exact ⟨rfl, rfl⟩
  others _ hc _ := node_update_of_ne (Ne.symm hc)

theorem fail {f : NodeError} (hp : (s.node x).state = .pending)
    (ht : Collection.fail rules x f s = .ok () t) : Intact current x s t := by
  obtain rfl := of_fail_of_pending hp ht
  have hview {α : Type} (v : Node → α) (hv : ∀ n : Node, v { n with state := .failed } = v n) :
      v (((s.update x fun n => { n with state := .failed }).report x f).node x) = v (s.node x) :=
    view_update v hv s x x
  exact ⟨Graph.size_update _ _ _, rfl, rfl, ⟨_, node_update_of_ne hne⟩,
    ⟨hview Node.children fun _ => rfl, hview Node.expanded fun _ => rfl⟩,
    fun _ _ hx => node_update_of_ne (Ne.symm hx)⟩

end Intact

end Collection

namespace Resolver

open Collection Run

variable {σ : Type} {resolver : Resolver σ} {q : Request} {st : σ} {r r' : Run σ} {current x : ℕ}

/-- A narrowing that leaves an expanded winner with the version that it had leaves it expanded, with
all that is below it. The exception is a constraint that has come to recommend a moving target which
the winner was neither declared with nor has as its version: then the winner is cut off and waits to
be expanded once more, whatever the target was made. -/
theorem subtree_stays_of_same_version {v w : Version} (h : resolver.Meets q st current x r)
    (hr : restrict (resolver.session q) current x r = .ok () r')
    (hx : (r.collection.node current).expanded = true)
    (hlive : (r'.collection.node current).state ≠ .failed)
    (hv : (r.collection.node current).version = some v)
    (hw : (r'.collection.node current).version = some w) (hs : v.same w = true) :
    Intact current x r.collection r'.collection ∨
      (∃ m, (r'.collection.node current).constraint.recommended = some m ∧
        Constraint.isOpenVersion m = true ∧ m.same v = false ∧
        (r.collection.node current).artifact.declared.any m.same = false) ∧
      (r'.collection.node current).expanded = false ∧
      (r'.collection.node current).children = [] ∧ current ∈ r'.collection.requeue := by
  have hst := h.steady
  have hmem := h.rival.mem
  have hii := isIncluded_iff.mp h.rival.included
  have hne := h.ne
  have hp := h.newcomer.1
  have hn := h.narrows hr
  generalize r'.collection = t at hlive hw hn ⊢
  generalize r.collection = s at hx hv hn hst hmem hii hp ⊢
  have hlt := hst.sound.lt_size_of_contender hmem
  have hboth (c : Constraint) (e : Event) (choice : Option Version) :
      Intact current x s (s.constrainBoth current x c e choice) := by
    have hsize := (sameShape_concede s x c e choice).size
    exact .trans (.concede hne) (.constrain hne (hlt.trans_eq hsize.symm) c)
  cases hn with
  | spare => exact .inl (.refl current x _)
  | clash _ ht => exact .inl (.fail hne hp ht)
  | @refuse c e f _ _ ht =>
    have hi : Intact current x s (s.concede x c e none) := .concede hne
    refine .inl (hi.trans (.fail hne ?_ ht))
    exact (sameShape_concede s x c e none).state x |>.trans hp
  | retain => exact .inl (hboth _ _ _)
  | @shift c e choice v' _ _ _ hc ht =>
    have hsh : s.SameShape (s.constrainBoth current x c e choice) := sameShape_constrainBoth
    have hst' := hsh.steady hst
    have hmem' := hsh.contenders ▸ hmem
    have hnode := node_constrainBoth_current hne hlt c e choice
    have hcore := core_changeVersion hst' hmem' ht (by rw [hnode]; exact hii)
    rw [hnode] at hcore
    have hv' : (t.node current).version = some v' := (congrArg Node.version hcore :)
    have hrec : (t.node current).constraint = c := (congrArg Node.constraint hcore :)
    obtain rfl := Option.some.inj (hv'.symm.trans hw)
    cases hc with
    | move hk ho =>
      obtain ⟨m, hm, hopen⟩ := ho.isMoving hk hv hs
      have hsel : (s.node current).artifact.selected = some v := hv
      rw [keepsVersion, hm, hsel] at hk
      simp only [Option.any_some, Option.isSome_some, Bool.true_and, Bool.or_eq_false_iff] at hk
      refine .inr ⟨⟨m, hrec ▸ hm, hopen, hk.1, hk.2⟩, (congrArg Node.expanded hcore :),
        (congrArg Node.children hcore :), ?_⟩
      exact mem_requeue_changeVersion hst' hmem' ht (by rw [hnode]; exact hx)
  | @abandon c e choice f _ _ _ ht =>
    have hsh : s.SameShape (s.constrainBoth current x c e choice) := sameShape_constrainBoth
    refine absurd (isFailed_of_fail (hsh.steady hst) (hsh.contenders ▸ hmem) (.inr ?_) ht).2 hlive
    exact (hsh.state current).trans hii

/-- Two versions of one library with different dependencies, and a library that insists on the
newer of them. -/
def upheld : Catalog :=
  (shelf [("b", "1", [("d", "1")]), ("b", "2", [("c", "1")]), ("c", "1", []), ("d", "1", [])]).add
    (library "a").key ⟨"1"⟩ ⟨[.plain (library "b") (.exact ⟨"2"⟩)], .empty⟩

/-- A library that was left open has the version that another one insists on, and stays as it is. -/
theorem subtree_stays_of_upheld : ∃ r r', (ofPolicy .nearest).Meets narrowing upheld 1 4 r ∧
    restrict ((ofPolicy .nearest).session narrowing) 1 4 r = .ok () r' ∧
    (r.collection.node 1).expanded = true ∧ (r'.collection.node 1).state ≠ .failed ∧
    (r.collection.node 1).version = some ⟨"2"⟩ ∧ (r'.collection.node 1).version = some ⟨"2"⟩ ∧
    Intact 1 4 r.collection r'.collection := by
  have hrun : passes (encounter ((ofPolicy .nearest).session narrowing) 1 4
      ((ofPolicy .nearest).start narrowing upheld).1) ((ofPolicy .nearest).start narrowing upheld).2
      (fun c r => c == some 1 && (r.collection.node 1).expanded &&
        (r.collection.node 1).version == some ⟨"2"⟩ &&
        passes (restrict ((ofPolicy .nearest).session narrowing) 1 4) r fun _ r' =>
          (r'.collection.node 1).state != .failed && (r'.collection.node 1).expanded &&
            (r'.collection.node 1).version == some ⟨"2"⟩) = true := by
    decide +kernel
  obtain ⟨c, r, hm, hc⟩ := passes_iff.mp hrun
  simp only [Bool.and_eq_true, beq_iff_eq] at hc
  obtain ⟨⟨⟨rfl, hx⟩, hv⟩, hc⟩ := hc
  obtain ⟨_, r', hr, hc⟩ := passes_iff.mp hc
  simp only [Bool.and_eq_true, beq_iff_eq, bne_iff_ne] at hc
  obtain ⟨⟨hlive, hx'⟩, hw⟩ := hc
  have hmeets := meets_of_encounter hm
  have hstays := subtree_stays_of_same_version hmeets hr hx hlive hv hw (Version.same_refl _)
  refine ⟨r, r', hmeets, hr, hx, hlive, hv, hw, hstays.resolve_right fun hcut => ?_⟩
  rw [hcut.2.1] at hx'
  cases hx'

end Resolver

end Mediation
