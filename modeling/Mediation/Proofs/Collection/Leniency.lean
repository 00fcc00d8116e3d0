import Mediation.Proofs.Collection.Setback

/-! # Leniency

A strict collection does what a lenient one does, but for the failures of dependencies that are
not optional: these abort it, while the lenient one goes on and has them among its problems from
then on. All other steps neither ask whether the rules are strict, nor note a problem.
-/

namespace Mediation

section Restrains

variable {ε S α β : Type} {C : S → Prop} {s : S}

/-- How the result of a stricter step compares to that of a lenient one: either it is the same and
a condition holds just if it held before, or it is a failure while the condition is broken. -/
inductive Refuses (C : S → Prop) (s : S) : EStateM.Result ε S α → EStateM.Result ε S α → Prop
  | same {x : EStateM.Result ε S α} (h : ∀ a t, x = .ok a t → (C t ↔ C s)) : Refuses C s x x
  | refused {x : EStateM.Result ε S α} {e : ε} {t : S} (h : ∀ a u, x = .ok a u → ¬ C u) :
      Refuses C s x (.error e t)

def Restrains (C : S → Prop) (x y : EStateM ε S α) : Prop := ∀ s, Refuses C s (x s) (y s)

theorem Refuses.of_ok {a : α} {t : S} {y : EStateM.Result ε S α} (h : Refuses C s (.ok a t) y)
    (ht : C t) : C s := by
  cases h with
  | same h => exact (h a t rfl).mp ht
  | refused h => exact absurd ht (h a t rfl)

namespace Restrains

theorem of_same {x : EStateM ε S α} (h : ∀ s a t, x s = .ok a t → (C t ↔ C s)) : Restrains C x x :=
  fun s => .same (h s)

theorem pure (a : α) : Restrains C (Pure.pure a : EStateM ε S α) (Pure.pure a) := by
  apply of_same
  rintro s _ _ ⟨⟩
  rfl

theorem bind {x y : EStateM ε S α} {f g : α → EStateM ε S β} (h : Restrains C x y)
    (hf : ∀ a, Restrains C (f a) (g a)) : Restrains C (x >>= f) (y >>= g) := by
  intro s
  have hs := h s
  change Refuses C s (EStateM.bind x f s) (EStateM.bind y g s)
  unfold EStateM.bind
  generalize x s = p, y s = q at hs ⊢
  cases hs with
  | same hp =>
    cases p with
    | error e t => exact .same nofun
    | ok a t =>
      have ht := hf a t
      dsimp only
      generalize f a t = p', g a t = q' at ht ⊢
      cases ht with
      | same hk => exact .same fun b u hb => (hk b u hb).trans (hp a t rfl)
      | refused hk => exact .refused hk
  | refused hp =>
    cases p with
    | error e t => exact .refused nofun
    | ok a t =>
      refine .refused fun b u hb hu => hp a t rfl ?_
      have ht := hf a t
      rw [show f a t = .ok b u from hb] at ht
      exact ht.of_ok hu

end Restrains

end Restrains

def Rules.withStrict (rules : Rules) (strict : Bool) : Rules := { rules with strict := strict }

namespace Collection

variable {rules : Rules} {s t : Collection} {u : Unit} {id x : NodeId} {b : Bool}

def IsLenient (s : Collection) : Prop := ∀ p ∈ s.problems, p.artifact.optional = true

theorem isLenient_congr (h : t.problems = s.problems) : t.IsLenient ↔ s.IsLenient := by
  unfold IsLenient
  rw [h]

theorem restrains_of_problems {α : Type} {step : Step α}
    (h : ∀ s a t, step s = .ok a t → t.problems = s.problems) : Restrains IsLenient step step :=
  .of_same fun s a t hs => isLenient_congr (h s a t hs)

theorem problems_displace (s : Collection) (k : Key) (i x : NodeId) :
    (s.displace k i x).1.problems = s.problems := by
  unfold displace
  dsimp only
  split
  · rw [(Spares.disableBelow _ i).problems, problems_widenScope, (Spares.redirect _ k i x).problems]
    rfl
  · rw [problems_widenScope, (Spares.redirect _ k i x).problems]
    rfl

theorem problems_revive (s : Collection) (w : NodeId) (cs : List NodeId) :
    (s.revive w cs).problems = s.problems := by
  have hc : (cs.foldl (fun s c => s.update c fun n => { n with kept := some w }) s).problems =
      s.problems := by
    refine (Spares.foldl_update ?_ cs s).problems
    intro n
    rfl
  unfold revive
  dsimp only
  rw [(Spares.enqueue _ w).problems]
  split
  · exact (Spares.prune _ w).problems.trans hc
  · exact hc

theorem problems_collapse (s : Collection) (i : NodeId) (e : NodeError) :
    (s.collapse i e).1.problems = s.problems ++ [⟨(s.node i).artifact, e⟩] := by
  have h : ((s.update i fun n => { n with state := .failed }).report i e).problems =
      s.problems ++ [⟨(s.node i).artifact, e⟩] := by
    have ha : ((s.update i fun n => { n with state := .failed }).node i).artifact =
        (s.node i).artifact := by
      apply view_update Node.artifact
      intro n
      rfl
    simp [report, ha]
    rfl
  unfold collapse
  dsimp only
  split
  · split
    · exact (Spares.disableBelow _ i).problems.trans h
    · exact h
  · exact h

theorem problems_reelect {ks : List Key} (h : reelect rules ks s = .ok u t) :
    t.problems = s.problems := by
  induction ks generalizing s with
  | nil =>
    cases h
    rfl
  | cons k ks ih =>
    rw [reelect_cons] at h
    split at h
    · split at h
      · rw [ih h, problems_revive]
      · cases h
    · exact ih h

theorem problems_resolveConflict {k : Key} {current : NodeId}
    (h : resolveConflict rules k current x s = .ok u t) : t.problems = s.problems := by
  rw [resolveConflict_eq] at h
  split at h
  · cases h
  · split at h
    · rw [problems_reelect h, problems_displace]
    · cases h
      exact problems_yieldTo s _ x

theorem problems_settle (h : settle rules x s = .ok u t) : t.problems = s.problems := by
  rw [settle_eq] at h
  split at h
  · exact problems_resolveConflict h
  · split at h
    · cases h
      rfl
    · cases h

theorem problems_changeVersion {v : Version} (h : changeVersion rules x v s = .ok u t) :
    t.problems = s.problems := by
  rw [changeVersion_eq] at h
  rw [problems_reelect h, (Spares.rebase s x v).problems]

theorem reelect_withStrict (rules : Rules) (b : Bool) (ks : List Key) :
    reelect (rules.withStrict b) ks = reelect rules ks := by
  induction ks with
  | nil => rfl
  | cons k ks ih =>
    rw [reelect, reelect, ih]
    rfl

theorem settle_withStrict (rules : Rules) (b : Bool) (id : NodeId) :
    settle (rules.withStrict b) id = settle rules id := by
  unfold settle resolveConflict
  simp only [reelect_withStrict]
  rfl

theorem changeVersion_withStrict (rules : Rules) (b : Bool) (id : NodeId) (v : Version) :
    changeVersion (rules.withStrict b) id v = changeVersion rules id v := by
  unfold changeVersion
  simp only [reelect_withStrict]

theorem attachAll_withStrict (rules : Rules) (b : Bool) (s : Collection) (p : NodeId)
    (ds : List Dependency) : s.attachAll (rules.withStrict b) p ds = s.attachAll rules p ds := by
  induction ds generalizing s with
  | nil => rfl
  | cons d ds ih =>
    rw [attachAll, attachAll]
    simp only [ih]
    rfl

theorem expand_withStrict (rules : Rules) (b : Bool) (s : Collection) (id : NodeId)
    (d : Descriptor) : s.expand (rules.withStrict b) id d = s.expand rules id d := by
  unfold expand
  simp only [attachAll_withStrict]

/-- The failure of what is not optional aborts a strict resolution, and stays among the problems of
a lenient one unless it aborts that one, too. -/
theorem restrains_fail (rules : Rules) (id : NodeId) (e : NodeError) :
    Restrains IsLenient (fail (rules.withStrict false) id e)
      (fail (rules.withStrict true) id e) := by
  intro s
  rw [fail_eq, fail_eq, reelect_withStrict, reelect_withStrict]
  have hlenient {u : Unit} {t : Collection}
      (h : reelect rules (s.collapse id e).2 (s.collapse id e).1 = .ok u t) :
      t.IsLenient ↔ s.IsLenient ∧ (s.node id).artifact.optional = true := by
    unfold IsLenient
    rw [problems_reelect h, problems_collapse]
    simp [or_imp, forall_and]
  have hstrict : s.isFatal (rules.withStrict true) id = !(s.node id).artifact.optional := by
    simp [isFatal, Rules.withStrict]
  cases hl : s.isFatal (rules.withStrict false) id with
  | true =>
    have hn : (s.node id).artifact.optional = false := by
      simp only [isFatal, Bool.and_eq_true, Bool.not_eq_true'] at hl
      exact hl.1
    rw [hstrict, hn]
    refine .same ?_
    rintro _ _ ⟨⟩
  | false =>
    rw [hstrict]
    cases ho : (s.node id).artifact.optional with
    | true => exact .same fun u t h => (hlenient h).trans (and_iff_left ho)
    | false =>
      refine .refused fun u t h ht => ?_
      rw [((hlenient h).mp ht).2] at ho
      cases ho

end Collection

end Mediation
