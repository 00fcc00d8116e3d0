import Mathlib.Data.Nat.Notation
import Mediation.Proofs.Repository.Reading
import Mediation.Proofs.Text.Digits
import Mediation.Transform.Pipeline

/-! # Pipelines are idempotent

At a moment at which repositories of one id tell the same, a run of a pipeline changes nothing that
they tell, so it is the composition of its transforms on versions. Each transform has nothing to do
on what it gives, and builds are left alone by all of them. But the transforms of the standard
pipeline run once each: a version that `LATEST` stands for may be named `RELEASE`.
-/

namespace Mediation

namespace Transform

variable {t : Transform} {c : Coordinate} {v w : Version} {e : Envelope}

theorem not_isOpenSnapshot_of_digit {d : Char} (hv : v.text.getLast? = some d)
    (hd : d.isDigit = true) : v.isOpenSnapshot = false := by
  refine Bool.eq_false_iff.mpr fun hopen => ?_
  obtain ⟨s, hs⟩ := List.isSuffixOf_iff_suffix.mp hopen
  have hlast : v.text.lower.getLast? = some 't' := by
    rw [← hs, List.getLast?_append]
    rfl
  rw [Text.lower, List.getLast?_map, hv, Option.map_some, Text.toLower_of_isDigit hd] at hlast
  rw [Option.some.inj hlast] at hd
  exact absurd hd (by decide)

theorem not_appliesTo_of_digit {d : Char} (hv : v.text.getLast? = some d)
    (hd : d.isDigit = true) (t : Transform) : t.appliesTo v = false := by
  have hne : ∀ (name : Text) (last : Char), name.getLast? = some last → last.isDigit = false →
      (v.text == name) = false := by
    intro name last hname hlast
    refine beq_eq_false_iff_ne.mpr fun heq => ?_
    rw [← heq, hv] at hname
    rw [Option.some.inj hname, hlast] at hd
    cases hd
  cases t with
  | release => exact hne Version.releaseName 'E' rfl (by decide)
  | latest => exact hne Version.latestName 'T' rfl (by decide)
  | snapshot => exact not_isOpenSnapshot_of_digit hv hd

theorem not_appliesTo_buildVersion (hv : v.isOpenSnapshot = true) (timestamp : Text)
    (number : UInt32) (t : Transform) : t.appliesTo (buildVersion v timestamp number) = false := by
  rw [buildVersion, if_pos hv]
  obtain ⟨d, hlast, hd⟩ := Text.exists_getLast?_ofNat (v.openStem ++ timestamp) number.toNat
  exact not_appliesTo_of_digit hlast hd t

theorem lastBuild_eq_or (v : Version) (r : SnapshotRecord) :
    lastBuild v r = v ∨ ∃ timestamp, lastBuild v r = buildVersion v timestamp r.buildNumber := by
  rw [lastBuild]
  split
  · split
    · exact .inl rfl
    · exact .inr ⟨_, rfl⟩
  · exact .inl rfl

theorem eq_or_concrete_of_construct (hv : v.isOpenSnapshot = true)
    (hw : construct .snapshot c v e = .ok w) : w = v ∨ ∀ t : Transform, t.appliesTo w = false := by
  have hlast : e.versioning.snapshot.elim v (lastBuild v) = w := Except.ok.inj hw
  cases hr : e.versioning.snapshot with
  | none =>
    rw [hr] at hlast
    exact .inl hlast.symm
  | some r =>
    rw [hr, Option.elim_some] at hlast
    rcases lastBuild_eq_or v r with h | ⟨timestamp, h⟩
    · exact .inl (hlast.symm.trans h)
    · rw [← hlast, h]
      exact .inr (not_appliesTo_buildVersion hv timestamp r.buildNumber)

theorem eq_of_text_beq {name : Text} (hv : (v.text == name) = true) (hw : (w.text == name) = true) :
    w = v := by
  cases v
  cases w
  exact congrArg Version.mk ((eq_of_beq hw).trans (eq_of_beq hv).symm)

/-- A version that a transform gives and still owns is the one it was given. -/
theorem eq_of_construct (hv : t.appliesTo v = true) (hw : t.construct c v e = .ok w)
    (ht : t.appliesTo w = true) : w = v := by
  cases t with
  | release => exact eq_of_text_beq hv ht
  | latest => exact eq_of_text_beq hv ht
  | snapshot =>
    rcases eq_or_concrete_of_construct hv hw with h | h
    · exact h
    · rw [h] at ht
      cases ht

end Transform

namespace Pipeline

variable {g h : Registry.InMemory} {rs : List Repository} {now : Moment} {c : Coordinate}
  {p : Pipeline} {t : Transform} {u v w : Version} {a b : Artifact}

def step (g : Registry.InMemory) (c : Coordinate) (rs : List Repository) (now : Moment)
    (t : Transform) (v : Version) : Except TransformError Version :=
  if t.appliesTo v then
    match (g.resolve (t.key c v) rs now).1 with
    | .error err => .error (.retrieval err)
    | .ok e => t.construct c v e
  else .ok v

/-- What transforms make of a version, one after the other, all reading the same. -/
def outcome (g : Registry.InMemory) (c : Coordinate) (rs : List Repository) (now : Moment) :
    Pipeline → Version → Except TransformError Version
  | [], v => .ok v
  | t :: ts, v => (step g c rs now t v).bind (outcome g c rs now ts)

theorem step_of_agrees (hg : g.IsEven rs now) (hh : Registry.Agrees rs now g h) (t : Transform)
    (v : Version) : step h c rs now t v = step g c rs now t v := by
  rw [step, step, Registry.resolve_of_agrees hg hh]

theorem outcome_of_agrees (hg : g.IsEven rs now) (hh : Registry.Agrees rs now g h) (p : Pipeline)
    (v : Version) : outcome h c rs now p v = outcome g c rs now p v := by
  induction p generalizing v with
  | nil => rfl
  | cons t ts ih =>
    rw [outcome, outcome, step_of_agrees hg hh]
    exact congrArg _ (funext ih)

theorem apply_eq (hg : g.IsEven rs now) (p : Pipeline) (v : Version) :
    (apply c rs now v g p).1 = outcome g c rs now p v ∧
      Registry.Agrees rs now g (apply c rs now v g p).2 := by
  induction p generalizing g v with
  | nil => exact ⟨rfl, .refl rs now g⟩
  | cons t ts ih =>
    rw [apply, outcome, step]
    split
    · have hr := (Registry.resolve_eq hg (t.key c v)).2
      generalize g.resolve (t.key c v) rs now = resolved at hr
      obtain ⟨answer, g'⟩ := resolved
      cases answer with
      | error err => exact ⟨rfl, hr⟩
      | ok e =>
        dsimp only
        cases t.construct c v e with
        | error err => exact ⟨rfl, hr⟩
        | ok w =>
          -- The rest reads from the registry that this transform left, which tells the same.
          obtain ⟨hi, hi'⟩ := ih (hg.of_agrees hr) w
          exact ⟨hi.trans (outcome_of_agrees hg hr ts w), hr.trans hi'⟩
    · exact ih hg v

theorem run_eq (hg : g.IsEven rs now) (p : Pipeline) (hv : a.effective = some v) :
    (run p a rs now g).1 = outcome g a.coordinate rs now p v ∧
      Registry.Agrees rs now g (run p a rs now g).2 := by
  rw [run, hv]
  exact apply_eq hg p v

theorem run_of_agrees (hg : g.IsEven rs now) (hh : Registry.Agrees rs now g h)
    (hv : a.effective = some v) :
    (run p a rs now h).1 = outcome g a.coordinate rs now p v :=
  (run_eq (hg.of_agrees hh) p hv).1.trans (outcome_of_agrees hg hh p v)

theorem step_of_not_appliesTo (hv : t.appliesTo v = false) : step g c rs now t v = .ok v := by
  rw [step, hv]
  rfl

theorem step_of_resolve {e : Envelope} (hv : t.appliesTo v = true)
    (hr : (g.resolve (t.key c v) rs now).1 = .ok e) : step g c rs now t v = t.construct c v e := by
  rw [step, if_pos hv, hr]

theorem step_again (hw : step g c rs now t v = .ok w) : step g c rs now t w = .ok w := by
  cases ht : t.appliesTo w with
  | false => exact step_of_not_appliesTo ht
  | true =>
    suffices heq : w = v by rwa [← heq] at hw
    rw [step] at hw
    split at hw
    · rename_i hv
      split at hw
      · cases hw
      · exact Transform.eq_of_construct hv hw ht
    · exact (Except.ok.inj hw).symm

/-- What the transform of open snapshots gives is what it was given, or concrete. -/
theorem eq_or_concrete_of_step (hw : step g c rs now .snapshot v = .ok w) :
    w = v ∨ ∀ t : Transform, t.appliesTo w = false := by
  rw [step] at hw
  split at hw
  · rename_i hv
    split at hw
    · cases hw
    · exact Transform.eq_or_concrete_of_construct hv hw
  · exact .inl (Except.ok.inj hw).symm

theorem outcome_cons (hv : step g c rs now t v = .ok u) (p : Pipeline) :
    outcome g c rs now (t :: p) v = outcome g c rs now p u := by
  rw [outcome, hv]
  rfl

theorem of_outcome_cons (hw : outcome g c rs now (t :: p) v = .ok w) :
    ∃ u, step g c rs now t v = .ok u ∧ outcome g c rs now p u = .ok w := by
  cases hv : step g c rs now t v with
  | error err =>
    rw [outcome, hv] at hw
    cases hw
  | ok u => exact ⟨u, rfl, (outcome_cons hv p).symm.trans hw⟩

theorem outcome_singleton (t : Transform) (v : Version) :
    outcome g c rs now [t] v = step g c rs now t v := by
  rw [outcome]
  cases step g c rs now t v <;> rfl

theorem steps_of_outcome (hw : outcome g c rs now Transform.all v = .ok w) :
    ∃ v₁ v₂, step g c rs now .release v = .ok v₁ ∧ step g c rs now .latest v₁ = .ok v₂ ∧
      step g c rs now .snapshot v₂ = .ok w := by
  obtain ⟨v₁, h₁, hw⟩ := of_outcome_cons hw
  obtain ⟨v₂, h₂, hw⟩ := of_outcome_cons hw
  exact ⟨v₁, v₂, h₁, h₂, (outcome_singleton .snapshot v₂).symm.trans hw⟩

theorem outcome_of_isOpenSnapshot (hv : v.isOpenSnapshot = true) :
    outcome g c rs now Transform.all v = step g c rs now .snapshot v := by
  have hsymbolic : ∀ name : Text, Version.isOpenSnapshot ⟨name⟩ = false →
      (v.text == name) = false := fun name hname =>
    beq_eq_false_iff_ne.mpr fun heq => Bool.false_ne_true (hname.symm.trans (heq ▸ hv))
  have hrelease : Transform.appliesTo .release v = false := hsymbolic _ (by decide)
  have hlatest : Transform.appliesTo .latest v = false := hsymbolic _ (by decide)
  rw [Transform.all, outcome_cons (step_of_not_appliesTo hrelease),
    outcome_cons (step_of_not_appliesTo hlatest), outcome_singleton]

theorem outcome_of_steps (hw : ∀ t : Transform, step g c rs now t w = .ok w) (p : Pipeline) :
    outcome g c rs now p w = .ok w := by
  induction p with
  | nil => rfl
  | cons t ts ih => rw [outcome_cons (hw t), ih]

/-- No transform has anything to do on an outcome, unless it is named `RELEASE`. -/
theorem step_of_outcome (hw : outcome g c rs now Transform.all v = .ok w)
    (hne : w.text ≠ Version.releaseName) (t : Transform) : step g c rs now t w = .ok w := by
  obtain ⟨v₁, v₂, -, h₂, h₃⟩ := steps_of_outcome hw
  -- Either the last transform made a build, or the version is what `LATEST` was made.
  rcases eq_or_concrete_of_step h₃ with rfl | hconcrete
  · cases t with
    | release => exact step_of_not_appliesTo (beq_eq_false_iff_ne.mpr hne)
    | latest => exact step_again h₂
    | snapshot => exact h₃
  · exact step_of_not_appliesTo (hconcrete t)

theorem symbolic_of_outcome (hw : outcome g c rs now Transform.all v = .ok w)
    (hrelease : w.text = Version.releaseName) :
    v.text = Version.releaseName ∨ v.text = Version.latestName := by
  obtain ⟨v₁, v₂, h₁, h₂, h₃⟩ := steps_of_outcome hw
  cases hr : Transform.appliesTo .release v with
  | true => exact .inl (eq_of_beq hr)
  | false =>
    cases hl : Transform.appliesTo .latest v with
    | true => exact .inr (eq_of_beq hl)
    | false =>
      obtain rfl := Except.ok.inj ((step_of_not_appliesTo hr).symm.trans h₁)
      obtain rfl := Except.ok.inj ((step_of_not_appliesTo hl).symm.trans h₂)
      rcases eq_or_concrete_of_step h₃ with rfl | hconcrete
      · exact .inl hrelease
      · have happlies : Transform.appliesTo .release w = true := beq_iff_eq.mpr hrelease
        rw [hconcrete] at happlies
        cases happlies

theorem outcome_again (hw : outcome g c rs now Transform.all v = .ok w)
    (hlatest : v.text = Version.latestName → w.text ≠ Version.releaseName) :
    outcome g c rs now Transform.all w = .ok w := by
  by_cases hrelease : w.text = Version.releaseName
  · rcases symbolic_of_outcome hw hrelease with hv | hv
    · suffices heq : w = v by rwa [← heq] at hw
      exact Transform.eq_of_text_beq (beq_iff_eq.mpr hv) (beq_iff_eq.mpr hrelease)
    · exact absurd hrelease (hlatest hv)
  · exact outcome_of_steps (step_of_outcome hw hrelease) Transform.all

/-- What the standard pipeline gives it gives again, from the registry before the run and from the
one after it, unless it made `RELEASE` of `LATEST`. If it did not give `RELEASE` at all, then no
transform has anything left to do. -/
theorem run_again (hg : g.IsEven rs now) (hrun : (run Transform.all a rs now g).1 = .ok w)
    (hlatest : a.effective = some ⟨Version.latestName⟩ → w.text ≠ Version.releaseName)
    (hcoordinate : b.coordinate = a.coordinate) (hb : b.effective = some w) :
    (run Transform.all b rs now g).1 = .ok w ∧
      (run Transform.all b rs now (run Transform.all a rs now g).2).1 = .ok w ∧
      (w.text ≠ Version.releaseName → ∀ t, (run [t] b rs now g).1 = .ok w) := by
  cases hv : a.effective with
  | none =>
    rw [run, hv] at hrun
    cases hrun
  | some v =>
    obtain ⟨hfirst, hagrees⟩ := run_eq hg Transform.all hv
    have hw := hfirst.symm.trans hrun
    have hagain : outcome g b.coordinate rs now Transform.all w = .ok w := by
      rw [hcoordinate]
      refine outcome_again hw fun hname => hlatest ?_
      rw [hv, ← hname]
    refine ⟨(run_of_agrees hg (.refl rs now g) hb).trans hagain,
      (run_of_agrees hg hagrees hb).trans hagain, fun hne t => ?_⟩
    rw [run_of_agrees hg (.refl rs now g) hb, outcome_singleton, hcoordinate]
    exact step_of_outcome hw hne t

def nightly : MemoryStore :=
  (MemoryStore.empty.put "mirror"
    ⟨"g", "a", none, some "2-SNAPSHOT", some "1", ["1", "2-SNAPSHOT"], none, none⟩).put "mirror"
      ⟨"g", "a", some "2-SNAPSHOT", none, none, [], none, some ⟨some "20260101.120000", 3, false⟩⟩

theorem run_again_of_nightly :
    (run Transform.all (.root (.jar "g" "a") ⟨"2-20260101.120000-3"⟩) [.mirror .daily] 0
      (run Transform.all (.root (.jar "g" "a") ⟨"LATEST"⟩) [.mirror .daily] 0
        (.ofStore nightly)).2).1 = .ok ⟨"2-20260101.120000-3"⟩ := by
  have hrun : (run Transform.all (.root (.jar "g" "a") ⟨"LATEST"⟩) [.mirror .daily] 0
      (.ofStore nightly)).1 = .ok ⟨"2-20260101.120000-3"⟩ := by rfl
  have hne : (⟨"2-20260101.120000-3"⟩ : Version).text ≠ Version.releaseName := by decide
  exact (run_again (b := .root (.jar "g" "a") ⟨"2-20260101.120000-3"⟩)
    (Registry.isEven_ofStore nightly [.mirror .daily] 0) hrun (fun _ => hne) rfl rfl).2.1

def misnamed : MemoryStore :=
  MemoryStore.empty.put "mirror" ⟨"g", "a", none, some "RELEASE", some "1", [], none, none⟩

example : (run Transform.all (.root (.jar "g" "a") ⟨"LATEST"⟩) [.mirror .daily] 0
      (.ofStore misnamed)).1 = .ok ⟨"RELEASE"⟩ ∧
    (run Transform.all (.root (.jar "g" "a") ⟨"RELEASE"⟩) [.mirror .daily] 0
      (.ofStore misnamed)).1 = .ok ⟨"1"⟩ :=
  ⟨by rfl, by rfl⟩

end Pipeline

end Mediation
