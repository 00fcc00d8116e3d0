import Mediation.Proofs.Collection.Leniency
import Mediation.Proofs.Run.Outcome

/-! # Strict runs

A strict run goes along with a lenient one, step by step, up to the first failure of a dependency
that is not optional and does not abort both.
-/

namespace Mediation

variable {σ α : Type}

def Session.withStrict (session : Session σ) (b : Bool) : Session σ :=
  { session with rules := session.rules.withStrict b }

namespace Run

open Collection

variable {session : Session σ}

def IsLenient (r : Run σ) : Prop := r.collection.IsLenient

theorem restrains_of_collection {x : RunM σ α}
    (h : ∀ r a r', x r = .ok a r' → r'.collection.problems = r.collection.problems) :
    Restrains IsLenient x x :=
  .of_same fun r a r' hr => isLenient_congr (h r a r' hr)

theorem restrains_lift {step step' : Step α} (h : Restrains Collection.IsLenient step step') :
    Restrains IsLenient (lift step : RunM σ α) (lift step') := by
  intro r
  have hr := h r.collection
  unfold lift
  generalize step r.collection = p, step' r.collection = q at hr ⊢
  cases hr with
  | same hp =>
    cases p with
    | error e t => exact .same nofun
    | ok a t =>
      refine .same ?_
      rintro _ _ ⟨⟩
      exact hp a t rfl
  | refused hp =>
    cases p with
    | error e t => exact .refused nofun
    | ok a t =>
      refine .refused ?_
      rintro _ _ ⟨⟩
      exact hp a t rfl

theorem restrains_collected : Restrains IsLenient (collected : RunM σ Collection) collected :=
  restrains_of_collection fun r c r' h => by
    rw [(collected_eq_ok.mp h).2]

theorem restrains_alter {f : Collection → Collection} (h : ∀ s, (f s).problems = s.problems) :
    Restrains IsLenient (alter f : RunM σ Unit) (alter f) :=
  restrains_of_collection fun r a r' hr => by
    rw [(of_alter hr).1]
    exact h r.collection

theorem restrains_reselect (session : Session σ) (id : NodeId) (c : Constraint) :
    Restrains IsLenient (reselect (session.withStrict false) id c)
      (reselect (session.withStrict true) id c) :=
  restrains_of_collection (x := reselect session id c) fun r a r' h => by
    rw [(of_reselect_eq_ok .refl h).1]

theorem restrains_follow (session : Session σ) (current : NodeId) (c : Constraint) :
    Restrains IsLenient (follow (session.withStrict false) current c)
      (follow (session.withStrict true) current c) := by
  unfold follow
  refine Restrains.bind (restrains_alter ?_) fun _ => ?_
  · intro _
    rfl
  apply Restrains.bind (restrains_reselect session current c)
  rintro (e | _ | v)
  · exact restrains_lift (restrains_fail session.rules current e)
  · exact .pure _
  · apply restrains_lift
    change Restrains _ (changeVersion (session.rules.withStrict false) current v)
      (changeVersion (session.rules.withStrict true) current v)
    rw [changeVersion_withStrict, changeVersion_withStrict]
    exact restrains_of_problems fun _ _ _ h => problems_changeVersion h

theorem restrains_narrow (session : Session σ) (current newcomer : NodeId) (c : Constraint)
    (e : Event) : Restrains IsLenient (narrow (session.withStrict false) current newcomer c e)
      (narrow (session.withStrict true) current newcomer c e) := by
  unfold narrow
  refine Restrains.bind (restrains_alter ?_) fun _ =>
    Restrains.bind (restrains_alter ?_) fun _ => ?_
  · intro _
    rfl
  · intro _
    rfl
  apply Restrains.bind (restrains_reselect session newcomer c)
  rintro (e | choice)
  · exact restrains_lift (restrains_fail session.rules newcomer e)
  · apply Restrains.bind
    · apply restrains_alter
      intro s
      cases choice <;> rfl
    · intro _
      exact restrains_follow session current c

theorem restrains_restrict (session : Session σ) (current newcomer : NodeId) :
    Restrains IsLenient (restrict (session.withStrict false) current newcomer)
      (restrict (session.withStrict true) current newcomer) := by
  rw [restrict_eq, restrict_eq]
  apply Restrains.bind restrains_collected
  intro s
  split
  · exact .pure _
  · cases (s.node current).constraint.intersect (s.node newcomer).constraint with
    | error e => exact restrains_lift (restrains_fail session.rules newcomer (.constraint e))
    | ok c => exact restrains_narrow session current newcomer c _

theorem restrains_confront (session : Session σ) (id : NodeId) (k : Key) :
    Restrains IsLenient (confront (session.withStrict false) id k)
      (confront (session.withStrict true) id k) := by
  have hsettle : Restrains IsLenient
      (do if ((← collected).node id).state = .pending then
            lift (settle (session.withStrict false).rules id) : RunM σ Unit)
      (do if ((← collected).node id).state = .pending then
            lift (settle (session.withStrict true).rules id)) := by
    apply Restrains.bind restrains_collected
    intro s
    split
    · apply restrains_lift
      change Restrains _ (settle (session.rules.withStrict false) id)
        (settle (session.rules.withStrict true) id)
      rw [settle_withStrict, settle_withStrict]
      exact restrains_of_problems fun _ _ _ h => problems_settle h
    · exact .pure _
  unfold confront
  apply Restrains.bind restrains_collected
  intro s
  cases s.winner? k with
  | none => exact hsettle
  | some current => exact (restrains_restrict session current id).bind fun _ => hsettle

theorem restrains_register (session : Session σ) (id : NodeId)
    (selection : Except NodeError Version) :
    Restrains IsLenient (register (session.withStrict false) id selection)
      (register (session.withStrict true) id selection) := by
  rw [register_eq, register_eq]
  apply Restrains.bind restrains_collected
  intro s
  split
  · exact .pure _
  · cases selection with
    | error e => exact restrains_lift (restrains_fail session.rules id e)
    | ok v =>
      refine Restrains.bind (restrains_alter ?_) fun _ => restrains_collected.bind fun t => ?_
      · intro _
        rfl
      · dsimp only
        split
        · refine Restrains.bind (restrains_alter ?_) fun _ => restrains_confront session id _
          intro _
          rfl
        · exact restrains_confront session id _

theorem restrains_registerAll (session : Session σ)
    (rest : List (NodeId × Except NodeError Version)) :
    Restrains IsLenient (registerAll (session.withStrict false) rest)
      (registerAll (session.withStrict true) rest) := by
  induction rest with
  | nil => exact .pure _
  | cons p rest ih => exact (restrains_register session p.1 p.2).bind fun _ => ih

theorem restrains_describe (session : Session σ) (id : NodeId) (d : SourceAnswer Descriptor) :
    Restrains IsLenient (describe (session.withStrict false) id d)
      (describe (session.withStrict true) id d) := by
  cases d with
  | error e =>
    unfold describe
    refine restrains_collected.bind fun s => ?_
    split
    · exact .pure _
    · refine Restrains.bind ?_ fun _ => .pure _
      exact restrains_lift (restrains_fail session.rules id (.metadata e))
  | ok d =>
    have hsame (b : Bool) : describe (session.withStrict b) id (.ok d) =
        describe session id (.ok d) := by
      unfold describe
      have hexpand (s : Collection) : s.expand (session.withStrict b).rules id d =
          s.expand session.rules id d := expand_withStrict session.rules b s id d
      simp only [hexpand]
    rw [hsame, hsame]
    refine restrains_of_collection fun r ids r' h => ?_
    obtain ⟨hread, -⟩ := reading_of_describe h
    generalize r'.collection = t at hread ⊢
    cases hread with
    | passed => rfl
    | expanded hi => exact problems_expand (Graph.lt_size_of_isIncluded (isIncluded_iff.mpr hi)) d

theorem restrains_describeAll (session : Session σ)
    (rest : List (NodeId × SourceAnswer Descriptor)) :
    Restrains IsLenient (describeAll (session.withStrict false) rest)
      (describeAll (session.withStrict true) rest) := by
  induction rest with
  | nil => exact .pure _
  | cons p rest ih =>
    exact (restrains_describe session p.1 p.2).bind fun _ => ih.bind fun _ => .pure _

theorem restrains_round (session : Session σ) (level : List NodeId) :
    Restrains IsLenient (round (session.withStrict false) level)
      (round (session.withStrict true) level) := by
  have hselect : Restrains IsLenient (selectAll (session.withStrict false) level)
      (selectAll (session.withStrict true) level) :=
    restrains_of_collection (x := selectAll session level) fun r a r' h => by
      rw [(of_selectAll_eq_ok h).1]
  have hfetch : Restrains IsLenient (fetchAll (session.withStrict false) level)
      (fetchAll (session.withStrict true) level) :=
    restrains_of_collection (x := fetchAll session level) fun r a r' h => by
      rw [(of_fetchAll_eq_ok h).1]
  apply hselect.bind
  intro selections
  apply (restrains_registerAll session selections).bind
  intro _
  apply hfetch.bind
  intro descriptors
  exact restrains_describeAll session descriptors

theorem restrains_rounds (session : Session σ) (n : ℕ) (level : List NodeId) :
    Restrains IsLenient (rounds (session.withStrict false) n level)
      (rounds (session.withStrict true) n level) := by
  have hget : Restrains IsLenient (get : RunM σ (Run σ)) get := by
    apply restrains_of_collection
    rintro r _ _ ⟨⟩
    rfl
  induction n generalizing level with
  | zero => exact hget.bind fun r => .pure _
  | succ n ih =>
    apply hget.bind
    intro r
    split
    · exact .pure _
    · exact (restrains_round session level).bind fun next => ih next

end Run

end Mediation
