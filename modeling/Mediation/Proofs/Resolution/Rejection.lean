import Mediation.Proofs.Resolution.Convergence

/-! # Rejections

A newcomer that fails while it is registered fails alone. Its version and its constraint are written
before the winner is looked at, and what is written to the winner comes after the last chance of the
newcomer to fail. So a rejected declaration leaves no trace but a problem.
-/

namespace Mediation

namespace Collection

variable {rules : Rules} {s t u : Collection} {ks : List Key} {i x : ℕ} {e : NodeError}

/-- A change that concerns one node, but neither another node nor the contenders nor the queue. -/
structure Concerns (x : NodeId) (s t : Collection) : Prop where
  size : t.graph.size = s.graph.size
  contenders : t.contenders = s.contenders
  requeue : t.requeue = s.requeue
  others : ∀ j : ℕ, j ≠ x → t.node j = s.node j

namespace Concerns

theorem trans (h : Concerns x s t) (h' : Concerns x t u) : Concerns x s u :=
  ⟨h'.size.trans h.size, h'.contenders.trans h.contenders, h'.requeue.trans h.requeue,
    fun j hj => (h'.others j hj).trans (h.others j hj)⟩

theorem update (s : Collection) (x : NodeId) (f : Node → Node) : Concerns x s (s.update x f) :=
  ⟨Graph.size_update _ _ _, rfl, rfl, fun _ hj => node_update_of_ne (Ne.symm hj)⟩

theorem emit (x : NodeId) (s : Collection) (e : Event) : Concerns x s (s.emit e) :=
  ⟨rfl, rfl, rfl, fun _ _ => rfl⟩

end Concerns

/-- A node fails, and nothing else happens: what is new is the state of the node, with its version
and its constraint, and the problem that says so. -/
structure FailsAlone (x : NodeId) (e : NodeError) (s t : Collection) : Prop
    extends Concerns x s t where
  failed : (t.node x).state = .failed
  problems : t.problems = s.problems ++ [⟨(t.node x).artifact, e⟩]

theorem FailsAlone.of_fail (hp : (s.node x).state = .pending)
    (h : fail rules x e s = .ok () t) : FailsAlone x e s t := by
  obtain rfl := of_fail_of_pending hp h
  have hx : x < s.graph.size := Graph.lt_size_of_state (by rw [← node, hp]; decide)
  refine ⟨.trans (.update s x _) ⟨rfl, rfl, rfl, fun _ _ => rfl⟩, ?_, rfl⟩
  exact congrArg Node.state (node_update_self hx)

theorem FailsAlone.head (h : FailsAlone x e t u) (hs : Concerns x s t)
    (hp : t.problems = s.problems) : FailsAlone x e s u :=
  ⟨hs.trans h.toConcerns, h.failed, hp ▸ h.problems⟩

theorem SameShape.winner? (h : s.SameShape t) (k : Key) : t.winner? k = s.winner? k := by
  have hi (j : ℕ) : t.graph.isIncluded j = s.graph.isIncluded j := by
    rw [Bool.eq_iff_iff, isIncluded_iff, isIncluded_iff, h.state]
  have hc : t.contendersOf k = s.contendersOf k := by
    simp only [contendersOf, h.contenders, h.key]
  rw [Collection.winner?, Collection.winner?, hc, funext hi]

theorem ne_of_winner? {k : Key} (hp : (s.node x).state = .pending)
    (hw : s.winner? k = some i) : x ≠ i := by
  rintro rfl
  have hi := (of_winner?_eq_some hw).2.2
  rw [hp] at hi
  cases hi

theorem Spares.of_reelect (h : reelect rules ks s = .ok () t) : Spares s t := by
  induction ks generalizing s with
  | nil =>
    rw [reelect_nil] at h
    cases h
    exact .refl _
  | cons k ks ih =>
    rw [reelect_cons] at h
    split at h
    · split at h
      · rename_i w he
        have hw := (mem_eligible.mp (mem_of_elect he)).2.2.1
        exact (Spares.revive (not_isFailed_of_state hw (by decide)) _).trans (ih h)
      · cases h
    · exact ih h

theorem state_ne_failed (hsize : t.graph.size = s.graph.size)
    (hf : t.graph.IsFailed x → s.graph.IsFailed x) (h : (s.node x).state ≠ .failed) :
    (t.node x).state ≠ .failed := fun ht =>
  h (hf ⟨hsize ▸ Graph.lt_size_of_state h, ht⟩).2

theorem state_ne_failed_of_reelect (h : reelect rules ks s = .ok () t)
    (hx : (s.node x).state ≠ .failed) : (t.node x).state ≠ .failed := by
  have hm : Moves rules ⟨fun _ _ _ => False, fun _ _ _ => False⟩ x (s, ks) (t, []) :=
    Moves.of_reelect h
  exact state_ne_failed hm.tells.size ((Spares.of_reelect h).failed x).mp hx

theorem state_ne_failed_of_changeVersion {v : Version} (h : changeVersion rules i v s = .ok () t)
    (hx : (s.node x).state ≠ .failed) : (t.node x).state ≠ .failed := by
  rw [changeVersion_eq] at h
  refine state_ne_failed_of_reelect h (state_ne_failed ?_ ((Spares.rebase s i v).failed x).mp hx)
  exact (Tells.rebase s i v).size

theorem state_ne_failed_of_fail (hi : i < s.graph.size) (hne : x ≠ i)
    (h : fail rules i e s = .ok () t) (hx : (s.node x).state ≠ .failed) :
    (t.node x).state ≠ .failed := by
  obtain ⟨-, h⟩ := of_fail_eq_ok h
  refine state_ne_failed_of_reelect h (state_ne_failed (Tells.collapse s i e).size ?_ hx)
  exact fun hf => (((fails_collapse hi e).failed x).mp hf).resolve_right hne

theorem state_ne_failed_of_settle (h : settle rules x s = .ok () t)
    (hx : (s.node x).state = .pending) : (t.node x).state ≠ .failed := by
  have hne : (s.node x).state ≠ .failed := by rw [hx]; decide
  have hf : ¬ s.graph.IsFailed x := fun hf => hne hf.2
  rw [settle_eq] at h
  split at h
  · rename_i current hw
    have hi := (of_winner?_eq_some hw).2.2
    rw [resolveConflict_eq] at h
    split at h
    · cases h
    · split at h
      · have hd := Spares.displace (not_isFailed_of_state hi (by decide)) hf (s.node x).key
        refine state_ne_failed_of_reelect h (state_ne_failed ?_ (hd.failed x).mp hne)
        exact (tells_displace s (s.node x).key current x).1.size
      · rename_i w _ _
        cases h
        exact state_ne_failed (tells_yieldTo s w x).1.size ((Spares.yieldTo hf w).failed x).mp hne
  · split at h
    · cases h
      exact state_ne_failed (Tells.accept s x).size ((Spares.accept hf).failed x).mp hne
    · cases h

end Collection

namespace Run

open Collection

variable {σ : Type} {session : Session σ} {r r' : Run σ} {current x : ℕ} {c : Constraint}
  {u : Unit}

/-- What a newcomer that meets a winner may fail for: there is nothing that both accept, or the
source has no version for it under what both accept. -/
inductive Objects (session : Session σ) (current x : NodeId) (a : Artifact) (r : Run σ) :
    NodeError → Prop
  | clash {f : ConstraintError}
      (hm : (r.collection.node current).constraint.intersect (r.collection.node x).constraint =
        .error f) : Objects session current x a r (.constraint f)
  | exhausted {c : Constraint} {st : σ} {e : NodeError}
      (hm : (r.collection.node current).constraint.intersect (r.collection.node x).constraint =
        .ok c)
      (hl : session.source.Later r.source st)
      (he : ((session.source.selection session.limits.fetch a c).ask st).1 = .error e) :
      Objects session current x a r e

/-- What is objected to does not change as long as both constraints and the source stay. -/
theorem Objects.of_eq {a : Artifact} {e : NodeError} (h : Objects session current x a r' e)
    (hs : r'.source = r.source)
    (hc : (r'.collection.node current).constraint = (r.collection.node current).constraint)
    (hx : (r'.collection.node x).constraint = (r.collection.node x).constraint) :
    Objects session current x a r e := by
  cases h with
  | clash hm => exact .clash (hc ▸ hx ▸ hm)
  | exhausted hm hl he => exact .exhausted (hc ▸ hx ▸ hm) (hs ▸ hl) he

theorem of_reselect_eq_error {i : ℕ} {e : NodeError}
    (h : reselect session i c r = .ok (.error e) r') :
    ∃ st, session.source.Later r.source st ∧
      ((session.source.selection session.limits.fetch (r.collection.node i).artifact c).ask st).1 =
        .error e := by
  unfold reselect at h
  obtain ⟨_, _, hc, h⟩ := bind_eq_ok.mp h
  obtain ⟨rfl, rfl⟩ := collected_eq_ok.mp hc
  split at h
  · cases (pure_eq_ok.mp h).1
  · obtain ⟨_, r₁, hc, h⟩ := bind_eq_ok.mp h
    obtain ⟨-, hl⟩ := of_count hc
    obtain ⟨a, r₂, ha, h⟩ := bind_eq_ok.mp h
    obtain ⟨-, -, ha⟩ := of_ask_eq_ok Source.isAsked_selection ha
    obtain ⟨he, -⟩ := pure_eq_ok.mp h
    cases a with
    | ok v => cases he
    | error f =>
      cases he
      exact ⟨r₁.source, hl ▸ .refl, ha.symm⟩

theorem state_ne_failed_of_follow (hne : x ≠ current)
    (hi : (r.collection.node current).state = .included)
    (hx : (r.collection.node x).state ≠ .failed) (h : follow session current c r = .ok u r') :
    (r'.collection.node x).state ≠ .failed := by
  have hcur : current < r.collection.graph.size :=
    Graph.lt_size_of_isIncluded (isIncluded_iff.mpr hi)
  unfold follow at h
  obtain ⟨_, r₁, h₁, h⟩ := bind_eq_ok.mp h
  obtain ⟨hc₁, -⟩ := of_alter h₁
  obtain ⟨res, r₂, h₂, h⟩ := bind_eq_ok.mp h
  obtain ⟨hc₂, -⟩ := of_reselect_eq_ok .refl h₂
  have hsh := sameShape_constrain r.collection current c
  rw [← hc₁, ← hc₂] at hsh
  have hx₂ : (r₂.collection.node x).state ≠ .failed := by rwa [hsh.state]
  cases res with
  | error e => exact state_ne_failed_of_fail (hsh.size.symm ▸ hcur) hne (of_lift h).1 hx₂
  | ok choice =>
    cases choice with
    | none =>
      obtain ⟨-, rfl⟩ := pure_eq_ok.mp h
      exact hx₂
    | some v => exact state_ne_failed_of_changeVersion (of_lift h).1 hx₂

/-- A newcomer under the constraint that both accept fails alone, or not at all. -/
theorem failsAlone_of_narrow {ev : Event} (hne : x ≠ current)
    (hi : (r.collection.node current).state = .included)
    (hp : (r.collection.node x).state = .pending)
    (hm : (r.collection.node current).constraint.intersect (r.collection.node x).constraint = .ok c)
    (h : narrow session current x c ev r = .ok u r') (hf : (r'.collection.node x).state = .failed) :
    ∃ e, Objects session current x (r.collection.node x).artifact r e ∧
      FailsAlone x e r.collection r'.collection := by
  unfold narrow at h
  obtain ⟨_, r₁, h₁, h⟩ := bind_eq_ok.mp h
  obtain ⟨hc₁, hl₁⟩ := of_alter h₁
  obtain ⟨_, r₂, h₂, h⟩ := bind_eq_ok.mp h
  obtain ⟨hc₂, hl₂⟩ := of_alter h₂
  rw [hc₁] at hc₂
  obtain ⟨res, r₃, h₃, h⟩ := bind_eq_ok.mp h
  obtain ⟨hc₃, -⟩ := of_reselect_eq_ok .refl h₃
  rw [hc₂] at hc₃
  -- the newcomer is under the constraint, and the winner is as it was
  have hsh : r.collection.SameShape ((r.collection.emit ev).constrain x c) :=
    (Agrees.emit r.collection ev).sameShape.trans (sameShape_constrain _ x c)
  have hown : Concerns x r.collection ((r.collection.emit ev).constrain x c) :=
    (Concerns.emit x r.collection ev).trans (.update _ x _)
  cases res with
  | error e =>
    obtain ⟨st, hl, ha⟩ := of_reselect_eq_error h₃
    rw [hl₂, hl₁] at hl
    have hart : (r₂.collection.node x).artifact = (r.collection.node x).artifact := by
      rw [hc₂]
      exact (view_update Node.artifact (by intro _; rfl) _ _ _).trans rfl
    rw [hart] at ha
    refine ⟨e, .exhausted hm hl ha, .head (.of_fail ?_ (hc₃ ▸ (of_lift h).1)) hown rfl⟩
    exact (hsh.state x).trans hp
  | ok choice =>
    obtain ⟨_, r₄, h₄, h⟩ := bind_eq_ok.mp h
    obtain ⟨hc₄, -⟩ := of_alter h₄
    rw [hc₃] at hc₄
    have hsh₄ : r.collection.SameShape r₄.collection :=
      hc₄ ▸ sameShape_concede r.collection x c ev choice
    refine absurd hf (state_ne_failed_of_follow hne ?_ ?_ h)
    · rw [hsh₄.state, hi]
    · rw [hsh₄.state, hp]
      decide

/-- A newcomer that is narrowed with a winner fails alone, or not at all. -/
theorem failsAlone_of_restrict (hne : x ≠ current)
    (hi : (r.collection.node current).state = .included)
    (hp : (r.collection.node x).state = .pending)
    (h : restrict session current x r = .ok u r') (hf : (r'.collection.node x).state = .failed) :
    ∃ e, Objects session current x (r.collection.node x).artifact r e ∧
      FailsAlone x e r.collection r'.collection := by
  rw [restrict_eq] at h
  obtain ⟨_, _, hs, h⟩ := bind_eq_ok.mp h
  obtain ⟨rfl, rfl⟩ := collected_eq_ok.mp hs
  split at h
  · obtain ⟨-, rfl⟩ := pure_eq_ok.mp h
    rw [hp] at hf
    cases hf
  generalize hm : (r.collection.node current).constraint.intersect
    (r.collection.node x).constraint = met at h
  cases met with
  | error f => exact ⟨.constraint f, .clash hm, .of_fail hp (of_lift h).1⟩
  | ok c => exact failsAlone_of_narrow hne hi hp hm h hf

theorem exists_introduce (x : NodeId) (v : Version) (r : Run σ) :
    ∃ r', introduce x v r = .ok () r' := by
  unfold introduce
  rw [bind_of_ok (alter_eq _ r), bind_of_ok (collected_eq _)]
  split
  · exact ⟨_, alter_eq _ _⟩
  · exact ⟨_, rfl⟩

/-- A newcomer that is introduced and fails has met a winner, and fails alone. -/
theorem failsAlone_of_confront (hp : (r.collection.node x).state = .pending)
    (h : confront session x (r.collection.node x).key r = .ok u r')
    (hf : (r'.collection.node x).state = .failed) :
    ∃ e current, FailsAlone x e r.collection r'.collection ∧
      r.collection.winner? (r.collection.node x).key = some current ∧
      Objects session current x (r.collection.node x).artifact r e := by
  -- a newcomer that is settled is not failed
  have hsettled {r₁ : Run σ} (h₁ : (do
      if ((← collected).node x).state = NodeState.pending then lift (settle session.rules x)) r₁ =
        .ok u r') : (r₁.collection.node x).state = .failed ∧ r₁ = r' := by
    obtain ⟨_, _, hc, h₁⟩ := bind_eq_ok.mp h₁
    obtain ⟨rfl, rfl⟩ := collected_eq_ok.mp hc
    split at h₁
    · rename_i hp₁
      exact absurd hf (state_ne_failed_of_settle (of_lift h₁).1 hp₁)
    · obtain ⟨-, rfl⟩ := pure_eq_ok.mp h₁
      exact ⟨hf, rfl⟩
  unfold confront at h
  obtain ⟨_, _, hc, h⟩ := bind_eq_ok.mp h
  obtain ⟨rfl, rfl⟩ := collected_eq_ok.mp hc
  cases hw : r.collection.winner? (r.collection.node x).key with
  | none =>
    rw [hw] at h
    have hfail := (hsettled h).1
    rw [hp] at hfail
    cases hfail
  | some current =>
    rw [hw] at h
    obtain ⟨_, r₁, h₁, h⟩ := bind_eq_ok.mp h
    obtain ⟨hf₁, rfl⟩ := hsettled h
    obtain ⟨e, ho, ha⟩ := failsAlone_of_restrict (ne_of_winner? hp hw)
      (of_winner?_eq_some hw).2.2 hp h₁ hf₁
    exact ⟨e, current, ha, rfl, ho⟩

/-- A newcomer that fails without an end of the resolution fails alone: no other node, no contender
and nothing in the queue is touched, and its own failure is the one problem that is new. It fails
since no version was selected for it, or for what it objects to in the winner that it meets. -/
theorem newcomer_fails_alone {selection : Except NodeError Version}
    (h : register session x selection r = .ok u r')
    (hp : (r.collection.node x).state = .pending) (hf : (r'.collection.node x).state = .failed) :
    ∃ e, FailsAlone x e r.collection r'.collection ∧
      (selection = .error e ∨ ∃ v current, selection = .ok v ∧
        r.collection.winner? (r.collection.node x).key = some current ∧
        Objects session current x ((r.collection.node x).artifact.select v) r e) := by
  cases selection with
  | error e =>
    rw [register_eq, bind_of_ok (collected_eq r), if_neg (not_not_intro hp)] at h
    exact ⟨e, .of_fail hp (of_lift h).1, .inl rfl⟩
  | ok v =>
    obtain ⟨r₁, hi⟩ := exists_introduce x v r
    rw [register_eq_confront hp hi] at h
    obtain ⟨hag, hsource, hcol⟩ := of_introduce_eq_ok hi
    have hx : x < r.collection.graph.size := Graph.lt_size_of_state (by rw [← node, hp]; decide)
    have hnode : r₁.collection.node x =
        { r.collection.node x with artifact := (r.collection.node x).artifact.select v } := by
      obtain hc | ⟨e, hc⟩ := hcol <;> rw [hc] <;> exact node_update_self hx
    have hown : Concerns x r.collection r₁.collection ∧
        r₁.collection.problems = r.collection.problems := by
      obtain hc | ⟨e, hc⟩ := hcol <;> rw [hc]
      · exact ⟨.update _ x _, rfl⟩
      · exact ⟨(Concerns.update _ x _).trans (.emit x _ e), rfl⟩
    have hsh : r.collection.SameShape r₁.collection :=
      (sameShape_select r.collection x v).trans hag.sameShape
    rw [← hsh.key] at h
    obtain ⟨e, current, ha, hw, ho⟩ := failsAlone_of_confront ((hsh.state x).trans hp) h hf
    rw [hsh.winner?, hsh.key] at hw
    rw [hnode] at ho
    exact ⟨e, ha.head hown.1 hown.2, .inr ⟨v, current, rfl, hw,
      ho.of_eq hsource (congrArg Node.constraint (hown.1.others current (ne_of_winner? hp hw).symm))
        (congrArg Node.constraint hnode :)⟩⟩

end Run

namespace Resolver

open Collection Run

/-- A library in an old and in a new version, and another one that wants a newer one. -/
def parted : Catalog :=
  (shelf [("b", "1", []), ("b", "5", [])]).add (library "a").key ⟨"1"⟩
    ⟨[.plain (library "b") (between "2" "5")], .empty⟩

def parting : Request :=
  .anonymous [.plain (library "b") (between "1" "3"), .plain (library "a") (.soft ⟨"1"⟩)] .empty

/-- The newer library is wanted in vain: no version is left in its range, which has been narrowed by
then, while that of the older one has not. -/
theorem newcomer_fails_alone_of_parted : ∃ r r' rest ids e,
    (ofPolicy .nearest).Reaches parting parted (.registering ((3, .ok ⟨"5"⟩) :: rest) ids) r ∧
    register ((ofPolicy .nearest).session parting) 3 (.ok ⟨"5"⟩) r = .ok () r' ∧
    (r.collection.node 3).state = .pending ∧ (r'.collection.node 3).state = .failed ∧
    (r'.collection.node 3).constraint = between "2" "3" ∧
    (r'.collection.node 1).constraint = between "1" "3" ∧
    FailsAlone 3 e r.collection r'.collection ∧
    Objects ((ofPolicy .nearest).session parting) 1 3
      ((r.collection.node 3).artifact.select ⟨"5"⟩) r e := by
  have hrun : passes (advance ((ofPolicy .nearest).session parting) 1
      ((ofPolicy .nearest).start parting parted).1) ((ofPolicy .nearest).start parting parted).2
      (fun ids r => !r.isSettled ids &&
        passes (selectAll ((ofPolicy .nearest).session parting) ids) r fun rest r =>
          rest.head? == some (3, .ok ⟨"5"⟩) && (r.collection.node 3).state == .pending &&
            r.collection.winner? (r.collection.node 3).key == some 1 &&
            (r.collection.node 1).constraint == between "1" "3" &&
            passes (register ((ofPolicy .nearest).session parting) 3 (.ok ⟨"5"⟩)) r fun _ r' =>
              (r'.collection.node 3).state == .failed &&
                (r'.collection.node 3).constraint == between "2" "3") = true := by
    decide +kernel
  obtain ⟨ids, r₀, h₀, hc⟩ := passes_iff.mp hrun
  rw [Bool.and_eq_true, Bool.not_eq_true'] at hc
  obtain ⟨hset, hc⟩ := hc
  obtain ⟨rest, r, hs, hc⟩ := passes_iff.mp hc
  simp only [Bool.and_eq_true, beq_iff_eq] at hc
  obtain ⟨⟨⟨⟨hhead, hp⟩, hw⟩, hone⟩, hc⟩ := hc
  obtain ⟨rest, rfl⟩ := List.head?_eq_some_iff.mp hhead
  obtain ⟨_, r', h, hc⟩ := passes_iff.mp hc
  simp only [Bool.and_eq_true, beq_iff_eq] at hc
  obtain ⟨hf, hcon⟩ := hc
  have hr := (reaches_advance .start h₀).select hset hs
  obtain ⟨e, ha, he | ⟨v, current, hv, hw', ho⟩⟩ := newcomer_fails_alone h hp hf
  · cases he
  · cases hv
    obtain rfl := Option.some.inj (hw.symm.trans hw')
    refine ⟨r, r', rest, ids, e, hr, h, hp, hf, hcon, ?_, ha, ho⟩
    rw [ha.others 1 (by decide), hone]

end Resolver

end Mediation
