import Mathlib.Logic.Relation
import Mediation.Proofs.Collection.Move

/-! # What a source tells

From its first state on a source tells descriptors and versions. Whatever a run gets
as an answer is told by the source, since asking only leads to later states of it.
-/

namespace Mediation

variable {σ α β : Type}

namespace Source

inductive Turn (src : Source σ) : σ → σ → Prop
  | retrieve (a : Artifact) (st : σ) : Turn src st (src.retrieve a st).2
  | versions (c : Coordinate) (st : σ) : Turn src st (src.versions c st).2
  | concretize (a : Artifact) (st : σ) : Turn src st (src.concretize a st).2

abbrev Later (src : Source σ) : σ → σ → Prop := Relation.ReflTransGen src.Turn

def Describes (src : Source σ) (st : σ) (c : Coordinate) (v : Option Version) (d : Descriptor) :
    Prop :=
  ∃ st', src.Later st st' ∧
    ∃ a : Artifact, a.coordinate = c ∧ a.selected = v ∧ (src.retrieve a st').1 = .ok d

def Lists (src : Source σ) (st : σ) (c : Coordinate) (v : Version) : Prop :=
  ∃ st', src.Later st st' ∧ ∃ vs, (src.versions c st').1 = .ok vs ∧ v ∈ vs

/-- Whether a version may be chosen for a coordinate under a constraint. -/
inductive Offers (src : Source σ) (st : σ) (c : Coordinate) (k : Constraint) : Version → Prop
  | recommended {v : Version} (h : k.recommended = some v)
      (ho : Constraint.isOpenVersion v = false) : Offers src st c k v
  | concrete {st' : σ} {a : Artifact} {v w : Version} (h : k.recommended = some v)
      (ho : Constraint.isOpenVersion v = true) (hl : src.Later st st')
      (hc : (src.concretize a st').1 = .ok w) : Offers src st c k w
  | listed {st' : σ} {vs : List Version} {v : Version} (h : k.recommended = none)
      (hl : src.Later st st') (hv : (src.versions c st').1 = .ok vs)
      (hs : k.select vs = .ok v) : Offers src st c k v

def evidence (src : Source σ) (st : σ) : Evidence := ⟨src.Describes st, src.Offers st⟩

variable {src : Source σ} {st st' : σ} {limit : Option Nat} {a : Artifact} {k : Constraint}

def IsAsked (src : Source σ) (q : Inquiry σ α) : Prop := ∀ st, src.Later st (q.ask st).2

theorem isAsked_bounded {c : Coordinate} {q : Inquiry σ (SourceAnswer α)} (h : src.IsAsked q) :
    src.IsAsked (Inquiry.bounded limit c q) := by
  intro st
  unfold Inquiry.bounded
  split
  · exact h st
  · split
    · exact .refl
    · exact h st

theorem of_bounded_eq_ok {c : Coordinate} {q : Inquiry σ (SourceAnswer α)} {x : α}
    (h : ((Inquiry.bounded limit c q).ask st).1 = .ok x) : (q.ask st).1 = .ok x := by
  unfold Inquiry.bounded at h
  split at h
  · exact h
  · split at h
    · cases h
    · exact h

theorem isAsked_description : src.IsAsked (src.description limit a) :=
  isAsked_bounded fun st => .single (.retrieve a st)

theorem describes_of_description {d : Descriptor} (hl : src.Later st st')
    (h : ((src.description limit a).ask st').1 = .ok d) :
    src.Describes st a.coordinate a.selected d :=
  ⟨st', hl, a, rfl, rfl, of_bounded_eq_ok h⟩

theorem isAsked_selection : src.IsAsked (src.selection limit a k) := by
  intro st
  unfold selection
  split
  · split
    · exact isAsked_bounded (fun st => .single (.concretize _ st)) st
    · exact .refl
  · exact isAsked_bounded (fun st => .single (.versions _ st)) st

theorem offers_of_selection {v : Version} (hl : src.Later st st')
    (h : ((src.selection limit a k).ask st').1 = .ok v) : src.Offers st a.coordinate k v := by
  unfold selection at h
  split at h
  · rename_i w hw
    split at h
    · rename_i ho
      have hb : ((Inquiry.bounded limit a.coordinate
          ⟨0, src.concretize { a with declared := some w, selected := none }⟩).ask st').1 =
            .ok v := by
        change Except.mapError NodeError.metadata _ = .ok v at h
        revert h
        cases ((Inquiry.bounded limit a.coordinate
          ⟨0, src.concretize { a with declared := some w, selected := none }⟩).ask st').1 with
        | error e => exact nofun
        | ok x => rintro h; cases h; rfl
      exact .concrete hw ho hl (of_bounded_eq_ok hb)
    · rename_i ho
      cases h
      exact .recommended hw (Bool.eq_false_iff.mpr ho)
  · rename_i hn
    change chosen k _ = .ok v at h
    generalize hx : ((Inquiry.bounded limit a.coordinate
      ⟨src.latency, src.versions a.coordinate⟩).ask st').1 = x at h
    cases x with
    | error e => cases h
    | ok vs =>
      refine .listed hn hl (of_bounded_eq_ok hx) ?_
      change (k.select vs).mapError NodeError.constraint = .ok v at h
      cases hs : k.select vs with
      | error e => rw [hs] at h; cases h
      | ok w => rw [hs] at h; cases h; rfl

end Source

namespace Run

variable {r r' : Run σ} {limits : Limits} {src : Source σ}

theorem bind_eq_ok {x : RunM σ α} {f : α → RunM σ β} {b : β} :
    (x >>= f) r = .ok b r' ↔ ∃ a r₁, x r = .ok a r₁ ∧ f a r₁ = .ok b r' := by
  change (EStateM.bind x f) r = _ ↔ _
  unfold EStateM.bind
  cases x r with
  | ok a r₁ =>
    constructor
    · exact fun h => ⟨a, r₁, rfl, h⟩
    · rintro ⟨_, _, h, hf⟩
      cases h
      exact hf
  | error e r₁ =>
    constructor
    · exact nofun
    · rintro ⟨_, _, h, _⟩
      cases h

theorem pure_eq_ok {a b : α} : (pure a : RunM σ α) r = .ok b r' ↔ a = b ∧ r = r' := by
  change EStateM.Result.ok a r = .ok b r' ↔ _
  rw [EStateM.Result.ok.injEq]

theorem of_lift {step : Step α} {a : α} (h : lift step r = .ok a r') :
    step r.collection = .ok a r'.collection ∧ r'.source = r.source := by
  unfold lift at h
  cases hs : step r.collection with
  | ok b c =>
    rw [hs] at h
    cases h
    exact ⟨rfl, rfl⟩
  | error e c =>
    rw [hs] at h
    cases h

theorem of_alter {f : Collection → Collection} {u : Unit} (h : alter f r = .ok u r') :
    r'.collection = f r.collection ∧ r'.source = r.source := by
  cases h
  exact ⟨rfl, rfl⟩

theorem of_count {n : Nat} {u : Unit} (h : count n r = .ok u r') :
    r'.collection = r.collection ∧ r'.source = r.source := by
  cases h
  exact ⟨rfl, rfl⟩

theorem collected_eq_ok {c : Collection} :
    collected r = .ok c r' ↔ c = r.collection ∧ r = r' := by
  constructor
  · intro h; cases h; exact ⟨rfl, rfl⟩
  · rintro ⟨rfl, rfl⟩; rfl

theorem of_ask_eq_ok {q : Inquiry σ α} {a : α} (hq : src.IsAsked q)
    (h : ask limits q r = .ok a r') : r'.collection = r.collection ∧
      src.Later r.source r'.source ∧ a = (q.ask r.source).1 := by
  obtain ⟨_, _, hg, h⟩ := bind_eq_ok.mp h
  cases hg
  dsimp only at h
  split at h
  · cases h
    exact ⟨rfl, hq _, rfl⟩
  · cases h

theorem of_askInTime {inTime : Nat → Bool} {qs : List (Inquiry σ α × Nat)}
    (hq : ∀ q ∈ qs, src.IsAsked q.1 ∧ inTime q.2 = true) (st : σ) :
    src.Later st (Inquiry.askInTime inTime qs st).2 ∧
      List.Forall₂ (fun q a => ∃ st', src.Later st st' ∧ (q.1.ask st').1 = a) qs
        (Inquiry.askInTime inTime qs st).1 := by
  induction qs generalizing st with
  | nil => exact ⟨.refl, .nil⟩
  | cons q qs ih =>
    obtain ⟨hasked, ht⟩ := hq q (List.mem_cons_self ..)
    have hl := hasked st
    obtain ⟨h₁, h₂⟩ := ih (fun q h => hq q (List.mem_cons_of_mem _ h)) (q.1.ask st).2
    simp only [Inquiry.askInTime, ht, if_true]
    exact ⟨hl.trans h₁, .cons ⟨st, .refl, rfl⟩ (h₂.imp fun _ _ ⟨st', hl', ha⟩ =>
      ⟨st', hl.trans hl', ha⟩)⟩

theorem length_answerTimes (window start : Nat) (taken delays : List Nat) :
    (Inquiry.answerTimes window start taken delays).length = delays.length := by
  induction delays generalizing taken with
  | nil => rfl
  | cons d ds ih => simp [Inquiry.answerTimes, ih]

/-- The answers to inquiries are told in their order, if all are in time. -/
theorem of_askAll_eq_ok {qs : List (Inquiry σ α)} {as : List α}
    (hq : ∀ q ∈ qs, src.IsAsked q) (h : askAll limits qs r = .ok as r') :
    r'.collection = r.collection ∧ src.Later r.source r'.source ∧
      List.Forall₂ (fun q a => ∃ st', src.Later r.source st' ∧ (q.ask st').1 = a) qs as := by
  obtain ⟨_, _, hg, h⟩ := bind_eq_ok.mp h
  cases hg
  dsimp only at h
  set times := Inquiry.answerTimes limits.window r.clock [] (qs.map (·.delay)) with htimes
  obtain ⟨_, _, hs, h⟩ := bind_eq_ok.mp h
  cases hs
  split at h
  · rename_i hall
    have hlen : times.length = qs.length := by
      rw [htimes, length_answerTimes, List.length_map]
    have hz : ∀ q ∈ qs.zip times, src.IsAsked q.1 ∧ inTime limits q.2 = true := fun q hm =>
      ⟨hq _ (List.of_mem_zip hm).1, List.all_eq_true.mp hall _ (List.of_mem_zip hm).2⟩
    obtain ⟨h₁, h₂⟩ := of_askInTime hz r.source
    cases h
    refine ⟨rfl, h₁, ?_⟩
    have hmap : qs = (qs.zip times).map Prod.fst := by
      rw [List.map_fst_zip hlen.ge]
    rw [hmap, List.forall₂_map_left_iff]
    rw [← hmap]
    exact h₂
  · cases h

end Run

end Mediation
