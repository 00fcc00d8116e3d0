import Mediation.Proofs.Collection.Balance
import Mediation.Proofs.Collection.Outlay
import Mediation.Proofs.Run.Outcome

/-! # Runs that end

If what a collection owes never grows, and every expansion and every failure to expand pays
for itself, then each round lowers the debt or leaves nothing to do. So a run ends after no
more rounds than it owes at its start, and two.
-/

namespace Mediation

namespace Run

open Collection

variable {σ : Type} {session : Session σ} {st : σ} {r r' : Run σ} {ids : List NodeId} {x : ℕ}
  {I : Collection → Prop} {μ : Collection → ℕ}

theorem rounds_of_settled (h : r.isSettled ids = true) (n : ℕ) :
    Run.rounds session n ids r = .ok true r := by
  cases n with
  | zero =>
    unfold Run.rounds
    exact congrArg (fun b => EStateM.Result.ok b r) h
  | succ n =>
    unfold Run.rounds
    refine bind_eq_ok.mpr ⟨r, r, rfl, ?_⟩
    rw [if_pos h]
    rfl

/-- An invariant of a run, and a measure that no step lets grow and every expansion lowers. -/
structure Law (session : Session σ) (st : σ) (I : Collection → Prop) (μ : Collection → ℕ) :
    Prop where
  agrees : ∀ {s t}, s.Agrees t → I s → I t ∧ μ t ≤ μ s
  move : ∀ {x a b}, Move session.rules (told session st) x a b → Steady a → I a.1 →
    I b.1 ∧ μ b.1 ≤ μ a.1
  collapse : ∀ {s : Collection} {x : ℕ} (e : NodeError), s.Sound → I s → x ≠ Graph.root →
    (s.node x).state = .included → (s.node x).expanded = false → μ (s.collapse x e).1 < μ s
  expand : ∀ {s : Collection} {x : ℕ} {d : Descriptor}, s.Sound → I s → x ≠ Graph.root →
    (s.node x).state = .included → (s.node x).expanded = false →
    (told session st).describes (s.node x).artifact.coordinate (s.node x).version d →
    I (s.expand session.rules x d).2 ∧ μ (s.expand session.rules x d).2 < μ s

namespace Law

variable (law : Law session st I μ)
include law

theorem moves {a b : Situation} (m : Moves session.rules (told session st) x a b) (h : Steady a)
    (hi : I a.1) : I b.1 ∧ μ b.1 ≤ μ a.1 := by
  refine m.preserve_of_steady (P := fun b => I b.1 ∧ μ b.1 ≤ μ a.1) h (fun _ _ m hs hb => ?_)
    ⟨hi, le_rfl⟩
  obtain ⟨hi', hle⟩ := law.move m hs hb.1
  exact ⟨hi', hle.trans hb.2⟩

theorem registerAll {rest : List (NodeId × Except NodeError Version)} {u : Unit}
    (h : Holds session st (.registering rest ids) r) (hi : I r.collection)
    (hs : Run.registerAll session rest r = .ok u r') :
    Holds session st (.registering [] ids) r' ∧ I r'.collection ∧
      μ r'.collection ≤ μ r.collection := by
  induction rest generalizing r with
  | nil =>
    obtain ⟨-, rfl⟩ := pure_eq_ok.mp hs
    exact ⟨h, hi, le_rfl⟩
  | cons p rest ih =>
    obtain ⟨x, v⟩ := p
    obtain ⟨_, r₁, h₁, hs⟩ := bind_eq_ok.mp hs
    obtain ⟨hi₁, hle₁⟩ := law.moves (arrives_register h h₁).1.moves h.1.steady hi
    obtain ⟨hh, hi₂, hle₂⟩ := ih (holds_register h h₁) hi₁ hs
    exact ⟨hh, hi₂, hle₂.trans hle₁⟩

theorem describe {created level : List NodeId} {d : SourceAnswer Descriptor}
    {rest : List (NodeId × SourceAnswer Descriptor)}
    (h : Holds session st (.describing ((x, d) :: rest) created) r) (hi : I r.collection)
    (hs : Run.describe session x d r = .ok level r') :
    I r'.collection ∧ μ r'.collection ≤ μ r.collection ∧
      ((r.collection.node x).state = .included → μ r'.collection < μ r.collection) := by
  obtain ⟨hp, -, hr⟩ := h
  have hx := hr x d (List.mem_cons_self ..)
  have hsound := hp.steady.sound
  obtain ⟨hread, -⟩ := reading_of_describe hs
  generalize hcol : r'.collection = t at hread
  cases hread with
  | passed hn => exact ⟨hi, le_rfl, fun hy => absurd hy hn⟩
  | @failed e t hy hf hre =>
    have hlt := law.collapse (.metadata e) hsound hi hx.ne_root hy hx.expanded
    have hc := (hsound.live x hx.ne_root (.inr hy)).1
    have hlose : Move session.rules (told session st) x (r.collection, [])
        (r.collection.collapse x (.metadata e)) :=
      .lose (.metadata e) hx.ne_root (isIncluded_iff.mpr hy) hx.expanded hf
    have hm : Moves session.rules (told session st) x
        (r.collection.collapse x (.metadata e)) (t, []) := Moves.of_reelect hre
    obtain ⟨hi₁, -⟩ := law.move hlose hp.steady hi
    obtain ⟨hi₂, hle⟩ := law.moves hm (hp.steady.collapse hc (.inr hy) _) hi₁
    exact ⟨hi₂, (hle.trans_lt hlt).le, fun _ => hle.trans_lt hlt⟩
  | @expanded d hy =>
    obtain ⟨hi', hlt⟩ := law.expand hsound hi hx.ne_root hy hx.expanded (hx.describes d rfl)
    exact ⟨hi', hlt.le, fun _ => hlt⟩

theorem describeAll {created next : List NodeId}
    {rest : List (NodeId × SourceAnswer Descriptor)}
    (h : Holds session st (.describing rest created) r) (hi : I r.collection)
    (hs : Run.describeAll session rest r = .ok next r') :
    Holds session st (.describing [] (created ++ next)) r' ∧ I r'.collection ∧
      μ r'.collection ≤ μ r.collection := by
  induction rest generalizing r created next with
  | nil =>
    obtain ⟨rfl, rfl⟩ := pure_eq_ok.mp hs
    rw [List.append_nil]
    exact ⟨h, hi, le_rfl⟩
  | cons p rest ih =>
    obtain ⟨x, d⟩ := p
    obtain ⟨level, r₁, h₁, hs⟩ := bind_eq_ok.mp hs
    obtain ⟨others, r₂, h₂, hs⟩ := bind_eq_ok.mp hs
    obtain ⟨rfl, rfl⟩ := pure_eq_ok.mp hs
    obtain ⟨hi₁, hle₁, -⟩ := law.describe h hi h₁
    obtain ⟨hh, hi₂, hle₂⟩ := ih (holds_describe h h₁) hi₁ h₂
    rw [List.append_assoc] at hh
    exact ⟨hh, hi₂, hle₂.trans hle₁⟩

/-- A round lowers the debt, or there is nothing left to do after it. -/
theorem round {next : List NodeId} (h : Holds session st (.level ids) r) (hi : I r.collection)
    (hs : Run.round session ids r = .ok next r') :
    Holds session st (.level next) r' ∧ I r'.collection ∧
      (μ r'.collection < μ r.collection ∨ r'.isSettled next = true) := by
  unfold Run.round at hs
  obtain ⟨selected, r₁, h₁, hs⟩ := bind_eq_ok.mp hs
  obtain ⟨_, r₂, h₂, hs⟩ := bind_eq_ok.mp hs
  obtain ⟨ds, r₃, h₃, hs⟩ := bind_eq_ok.mp hs
  obtain ⟨hc₁, -⟩ := of_selectAll_eq_ok h₁
  obtain ⟨hreg, hi₂, hle₂⟩ := law.registerAll (holds_select h h₁) (hc₁ ▸ hi) h₂
  obtain ⟨hc₃, -, hfst, -⟩ := of_fetchAll_eq_ok h₃
  have hag : r₂.collection.Agrees r₃.collection := hc₃ ▸ ⟨rfl, rfl, fun _ => rfl⟩
  obtain ⟨hi₃, hle₃⟩ := law.agrees hag hi₂
  have hhold := holds_fetch hreg h₃
  have hle : μ r₃.collection ≤ μ r.collection := hc₁ ▸ hle₃.trans hle₂
  have hend := law.describeAll hhold hi₃ hs
  rw [List.nil_append] at hend
  refine ⟨holds_next hend.1, hend.2.1, ?_⟩
  cases ds with
  | nil =>
    obtain ⟨rfl, rfl⟩ := pure_eq_ok.mp hs
    exact .inr (by simp [isSettled, hc₃])
  | cons p ds =>
    obtain ⟨x, d⟩ := p
    obtain ⟨level, r₄, h₄, hs⟩ := bind_eq_ok.mp hs
    obtain ⟨others, r₅, h₅, hs⟩ := bind_eq_ok.mp hs
    obtain ⟨-, rfl⟩ := pure_eq_ok.mp hs
    have hx : x ∈ expandable r₂.collection ids := hfst ▸ List.mem_cons_self ..
    have hxi := (hag.state x).trans (mem_expandable.mp hx).2.1
    obtain ⟨hi₄, -, hlt⟩ := law.describe hhold hi₃ h₄
    have hrest := law.describeAll (holds_describe hhold h₄) hi₄ h₅
    exact .inl ((hrest.2.2.trans_lt (hlt hxi)).trans_le hle)

theorem rounds {n : ℕ} {b : Bool} (h : Holds session st (.level ids) r) (hi : I r.collection)
    (hn : μ r.collection + 2 ≤ n) (hs : Run.rounds session n ids r = .ok b r') : b = true := by
  induction n generalizing ids r with
  | zero => exact absurd hn (Nat.not_succ_le_zero _)
  | succ n ih =>
    unfold Run.rounds at hs
    obtain ⟨_, _, hg, hs⟩ := bind_eq_ok.mp hs
    cases hg
    split at hs
    · cases hs
      rfl
    · obtain ⟨next, r₁, h₁, hs⟩ := bind_eq_ok.mp hs
      obtain ⟨hh, hi₁, hlt | hset⟩ := law.round h hi h₁
      · exact ih hh hi₁ (by omega) hs
      · rw [rounds_of_settled hset] at hs
        cases hs
        rfl

end Law

end Run

namespace Resolver

open Collection

variable {σ : Type} {resolver : Resolver σ} {q : Request} {st : σ} {T : Tariff}

/-- Whether the rounds of a resolution come to an end: to an error, or to an empty level with
nothing to expand once more. -/
def Ends (resolver : Resolver σ) (q : Request) (st : σ) : Prop :=
  ∃ n, ∀ fuel ≥ n, (∃ e, (resolver.resolve fuel q st).1 = .error e) ∨
    (∃ res, (resolver.resolve fuel q st).1 = .ok (some res)) ∧
      resolver.Reaches q st (.level []) (resolver.resolve fuel q st).2 ∧
      (resolver.resolve fuel q st).2.collection.requeue = []

/-- Whether the terms hold for a resolution: of what it is told, of every election, and of every
descriptor that it reads. -/
structure Covers (resolver : Resolver σ) (q : Request) (st : σ) (T : Tariff) : Prop where
  governs : T.Governs (resolver.session q).rules (Run.told (resolver.session q) st)
  favours : ∀ {s : Collection}, s.Sound → s.Tame T (Run.told (resolver.session q) st) →
    s.Favours T (resolver.session q).rules
  allows : ∀ {s : Collection} {x : ℕ} {d : Descriptor},
    s.Tame T (Run.told (resolver.session q) st) → s.InPlay x →
    (s.node x).version.isSome = true →
    (Run.told (resolver.session q) st).describes (s.node x).artifact.coordinate
      (s.node x).version d → T.Allows (s.node x).site d
  root : T.Allows ((Collection.start q.root q.version q.management).node Graph.root).site
    ⟨q.dependencies, q.management⟩

namespace Covers

variable (h : resolver.Covers q st T)
include h

theorem law : Run.Law (resolver.session q) st
    (Tame T (Run.told (resolver.session q) st)) (debt T) where
  agrees ha ht := ⟨(ha.settles ht).tame, (ha.settles ht).debt⟩
  move m hs ht :=
    have hm := m.settles hs ht h.governs (h.favours hs.sound ht)
    ⟨hm.tame, hm.debt⟩
  collapse e hs _ hr hi hx := debt_collapse_lt hs hr hi hx e
  expand hs ht hr hi hx hd :=
    have ha := h.allows ht (hs.inPlay hr (.inr hi)) (hs.versioned _ hr hi) hd
    ⟨tame_expand ht hi ha hs h.governs, debt_expand_lt ht hi ha hs h.governs hr hx⟩

theorem tame_start :
    (resolver.start q st).2.collection.Tame T (Run.told (resolver.session q) st) := by
  have hs := steady_start q.root q.version q.management
  refine tame_expand ⟨fun j hj => ?_, fun i k pin c hk hv => ?_⟩ hs.sound.root_included h.root
    hs.sound h.governs
  · cases hj.1
  · by_cases hi : i = Graph.root
    · subst hi
      exact h.root.pins hk hv
    · have hsize : (Collection.start q.root q.version q.management).graph.size ≤ i :=
        Nat.one_le_iff_ne_zero.mpr hi
      rw [node_of_size_le hsize] at hk
      cases hk

theorem ends : resolver.Ends q st := by
  refine ⟨(resolver.start q st).2.collection.debt T + 2, fun fuel hn => ?_⟩
  cases hs : Run.rounds (resolver.session q) fuel (resolver.start q st).1
      (resolver.start q st).2 with
  | error e r => exact .inl ⟨e, by rw [resolve_eq, hs]⟩
  | ok b r =>
    obtain rfl := h.law.rounds (resolver.holds_start q st) h.tame_start hn hs
    have hres : (resolver.resolve fuel q st).1 = .ok (some (.ofRun r)) := by rw [resolve_eq, hs]
    obtain ⟨-, hq, hr⟩ := reaches_of_resolve hres
    exact .inr ⟨⟨_, hres⟩, hr, hq⟩

end Covers

end Resolver

end Mediation
