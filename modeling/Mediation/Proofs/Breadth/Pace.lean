import Mediation.Proofs.Breadth.Calm
import Mediation.Proofs.Resolution.Ranking
import Mediation.Proofs.Run.Timely

/-! # Keeping pace with the plain mediation

Under the nearest winner and with recommendations only, a run keeps its collection calm: a newcomer
gets its place at once, and each expansion goes one kept encounter further. Every round but the
last expands something.
-/

namespace Mediation

theorem eraseDups_eq_self {ids : List NodeId} (h : ids.Nodup) : ids.eraseDups = ids := by
  induction ids with
  | nil => rfl
  | cons i ids ih =>
    obtain ⟨hi, hn⟩ := List.nodup_cons.mp h
    have hf : (ids.filter fun j => !j == i) = ids := by
      rw [List.filter_eq_self]
      rintro j hj
      have hne : j ≠ i := fun he => hi (he ▸ hj)
      simp [hne]
    rw [List.eraseDups_cons, hf, ih hn]

theorem Source.recommended_of_offers {σ : Type} {src : Source σ} {st : σ} {a : Coordinate}
    {c : Constraint} {v : Version} (hs : c.isSoft = true) (hc : c.isConcrete = true)
    (ho : src.Offers st a c v) : c.recommended = some v := by
  cases ho with
  | recommended hv => exact hv
  | concrete hv hopen =>
    rw [Constraint.isConcrete, hv] at hc
    simp [hopen] at hc
  | listed hv =>
    rw [Constraint.isSoft, hv] at hs
    cases hs

namespace Collection

variable {rules : Rules} {s : Collection} {v : Version} {i x : ℕ}

theorem elect_of_nearest (hs : s.Sound) (ha : rules.arbiter = Policy.nearest.arbiter) {k : Key}
    (hix : i < x) (hx : x < s.graph.size) (hd : (s.node i).depth ≤ (s.node x).depth) :
    s.elect rules k [min i x, max i x] = .ok i := by
  have hid : (s.node i).id = i := hs.tree.id_eq i (hix.trans hx)
  rw [min_eq_left hix.le, max_eq_right hix.le]
  simp [elect, ha, Policy.arbiter, Policy.best, Policy.prefers, not_lt.mpr hd, hid]

theorem elect_single (hs : s.Sound) (ha : rules.arbiter = Policy.nearest.arbiter) {k : Key}
    (hx : x < s.graph.size) : s.elect rules k [x] = .ok x := by
  have hid : (s.node x).id = x := hs.tree.id_eq x hx
  simp [elect, ha, Policy.arbiter, Policy.best, hid]

theorem settle_of_nearest (ha : rules.arbiter = Policy.nearest.arbiter) (hs : s.Sound)
    (hp : (s.node x).state = .pending) (hi : s.IsInner) (o : s.graph.IsOrderly)
    (hlast : s.IsLatest x) (v : Version) :
    ∃ t st, settle rules x (s.select x v) = .ok () t ∧ Seats x v st s t ∧
      (st = .included ∨ st = .omittedForConflict ∧ ∃ w < x, w ≠ Graph.root ∧
        (s.node w).state = .included ∧ (s.node w).key = (s.node x).key) := by
  have hsh := sameShape_select s x v
  have hsv := hsh.sound hs
  have hx := hs.lt_size_of_contender (Steady.pending_contender hs hp)
  have hxv : x < (s.select x v).graph.size := hx.trans_eq hsh.size.symm
  rw [settle_eq]
  cases hw : (s.select x v).winner? ((s.select x v).node x).key with
  | none =>
    refine ⟨_, .included, ?_, .accept hs hp hi v, .inl rfl⟩
    rw [elect_single hsv ha hxv]
  | some w =>
    obtain ⟨hwc, hwk, hwi⟩ := of_winner?_eq_some hw
    rw [hsh.contenders] at hwc
    rw [hsh.key, hsh.key] at hwk
    rw [hsh.state] at hwi
    have hwr := hs.ne_root_of_contender hwc
    have hwx : w < x := by
      refine lt_of_le_of_ne (hlast w (hs.versioned w hwr hwi)) ?_
      rintro rfl
      rw [hp] at hwi
      cases hwi
    have hdepth : (s.node w).depth ≤ (s.node x).depth := o.depth_le hs.tree hwx.le hx
    have hzero : (s.node w).depth ≠ 0 := by
      obtain ⟨p, -, hpar⟩ := hs.tree.parent_lt w (hwx.trans hx) hwr
      have hd : (s.node w).depth = (s.node p).depth + 1 := hs.tree.depth_eq w p hpar
      omega
    have hdv (j : ℕ) : ((s.select x v).node j).depth = (s.node j).depth :=
      congrArg Site.depth (hsh.site j)
    refine ⟨_, .omittedForConflict, ?_, .yieldTo hs hp hi v hzero hdepth,
      .inr ⟨rfl, w, hwx, hwr, hwi, hwk⟩⟩
    dsimp only
    rw [resolveConflict_eq, elect_of_nearest hsv ha hwx hxv (by rw [hdv, hdv]; exact hdepth)]
    dsimp only
    rw [if_neg hwx.ne]

end Collection

namespace Resolver

open Collection Run

variable {σ : Type} {resolver : Resolver σ} {q : Request} {st : σ}

theorem lasts_mild (h : ∀ d, resolver.Declares q st d → ∀ c ∈ d.constraints, c.isSoft = true) :
    resolver.Lasts q st Mild where
  start := ⟨(lasts_complies h).start, fun _ hj => absurd hj.1 List.not_mem_nil⟩
  clear hm := hm.agrees (agrees_clear _)
  move m hs hm := hm.move m hs
  expand hs hm hx hd :=
    hm.expand hs (Graph.lt_size_of_isIncluded (isIncluded_iff.mpr hx))
      ((lasts_complies h).expand hs hm.complies hx hd)

/-- Whether the nearest dependency wins, no scope is filtered out, all descriptors are answered in
time, and finitely many identities are declared with nothing but recommendations of concrete
versions. -/
structure IsPlain (resolver : Resolver σ) (q : Request) (st : σ) : Prop where
  nearest : resolver.arbiter = Policy.nearest.arbiter
  unfiltered : (resolver.session q).rules.filter = none
  answered : ∀ st', resolver.source.Later st st' → ∀ a,
    ∃ d, (resolver.source.retrieve a st').1 = .ok d
  fetched : ∀ l, resolver.config.limits.fetch = some l → resolver.source.latency ≤ l
  soft : ∀ d, resolver.Declares q st d → ∀ c ∈ d.constraints, c.isSoft = true
  concrete : ∀ d, resolver.Declares q st d → ∀ c ∈ d.constraints, c.isConcrete = true
  finite : {k | ∃ d, resolver.Declares q st d ∧ ∃ x ∈ d.dependencies, x.coordinate.key = k}.Finite

def Abreast (resolver : Resolver σ) (q : Request) (st : σ) (m : ℕ) (r : Run σ) : Prop :=
  OnTime (resolver.session q) r ∧ ∃ enc n,
    r.collection.Calm q (resolver.source.Describes st) enc n ∧
      (r.collection.keptBefore enc n).length = m

theorem Abreast.isSettled_nil {m : ℕ} {r : Run σ} (h : resolver.Abreast q st m r) :
    r.isSettled [] = true := by
  obtain ⟨-, enc, n, hc, -⟩ := h
  simp [isSettled, hc.requeue]

/-- Descriptors to read for included nodes that are older than all that is pending. -/
structure Due (rest : List (NodeId × SourceAnswer Descriptor)) (s : Collection) : Prop where
  sorted : (rest.map Prod.fst).Pairwise (· < ·)
  included : ∀ j ∈ rest.map Prod.fst, (s.node j).state = .included
  answered : ∀ d ∈ rest.map Prod.snd, ∃ e, d = .ok e
  young : ∀ j : ℕ, (s.node j).state = .pending → ∀ y ∈ rest.map Prod.fst, y < j

namespace IsPlain

variable (h : resolver.IsPlain q st) {r r' : Run σ} {ids created : List NodeId} {m x : ℕ}
include h

theorem selected (hr : resolver.Reaches q st (.level ids) r)
    {rest : List (NodeId × Except NodeError Version)}
    (hs : selectAll (resolver.session q) ids r = .ok rest r') :
    ∀ v ∈ rest.map Prod.snd, ∃ w, v = .ok w := by
  have hh := holds_of_reaches hr
  obtain ⟨-, -, hfst, hasked⟩ := of_selectAll_eq_ok hs
  intro v hv
  obtain ⟨⟨j, v⟩, hm, rfl⟩ := List.mem_map.mp hv
  have hj : j ∈ rest.map Prod.fst := List.mem_map_of_mem (f := Prod.fst) hm
  rw [hfst, List.mem_filter] at hj
  have hp : (r.collection.node j).state = .pending := by simpa using hj.2
  have hc := Steady.pending_contender hh.steady.sound hp
  have hjr := hh.steady.sound.ne_root_of_contender hc
  have hjs := hh.steady.sound.lt_size_of_contender hc
  have hsoft := ((lasts_complies h.soft).reaches hr).declared j hjr hjs
  have hconc := ((lasts_complies h.concrete).reaches hr).declared j hjr hjs
  obtain ⟨st', -, rfl⟩ := hasked j v hm
  rw [hh.blank j hp]
  cases hv : (r.collection.node j).declaredConstraint.recommended with
  | none =>
    rw [Constraint.isSoft, hv] at hsoft
    cases hsoft
  | some w =>
    have hopen : Constraint.isOpenVersion w = false := by
      rw [Constraint.isConcrete, hv] at hconc
      simpa using hconc
    refine ⟨w, ?_⟩
    simp only [Source.selection, hv, hopen]
    rfl

theorem register {v : Version} {rest : List (NodeId × Except NodeError Version)}
    (hr : resolver.Reaches q st (.registering ((x, .ok v) :: rest) ids) r)
    (ha : resolver.Abreast q st m r) :
    ∃ r', Run.register (resolver.session q) x (.ok v) r = .ok () r' ∧
      resolver.Abreast q st m r' := by
  obtain ⟨hh, hsel⟩ := holds_of_reaches hr
  have hs := hh.steady.sound
  by_cases hp : (r.collection.node x).state = .pending
  swap
  · refine ⟨r, ?_, ha⟩
    rw [register_eq, bind_of_ok (collected_eq r), if_pos hp]
    rfl
  have hx := hs.lt_size_of_contender (Steady.pending_contender hs hp)
  have hxr := hs.ne_root_of_contender (Steady.pending_contender hs hp)
  obtain ⟨ht, enc, n, hc, hm⟩ := ha
  have hmild := (lasts_mild h.soft).reaches hr
  have hoff := (hsel x (.ok v) (List.mem_cons_self ..)).2.offers v rfl
  have hver := Source.recommended_of_offers (hmild.complies.declared x hxr hx)
    (((lasts_complies h.concrete).reaches hr).declared x hxr hx) hoff
  have hsh := sameShape_select r.collection x v
  have hreg : Run.register (resolver.session q) x (.ok v) r =
      lift (settle (resolver.session q).rules x)
        { r with collection := r.collection.select x v } := by
    apply register_of_soft hx hp
    · exact hmild.soft x (hs.inPlay hxr (.inl hp)) (by rw [hp]; decide)
    · intro i hi
      obtain ⟨hic, -, hii⟩ := of_winner?_eq_some hi
      rw [hsh.contenders] at hic
      rw [hsh.state] at hii
      have hcon : ((r.collection.select x v).node i).constraint =
          (r.collection.node i).constraint := view_select Node.constraint v fun _ => rfl
      rw [hcon]
      exact hmild.soft i (hs.inPlay (hs.ne_root_of_contender hic) (.inr hii))
        (by rw [hii]; decide)
  obtain ⟨t, stt, hset, hseats, hst⟩ :=
    settle_of_nearest (show (resolver.session q).rules.arbiter = _ from h.nearest) hs hp hc.inner
      hc.orderly hh.order.isLatest v
  have hencounter : (enc x).version = some v := by
    rw [Encounter.version, ← (hc.mirrors x hxr hx).constraint]
    exact hver
  obtain ⟨hct, hkept⟩ := hc.seat hs hp hseats (hst.imp_left fun hi => ⟨hi, hencounter⟩)
  refine ⟨{ r with collection := t }, ?_, ht, enc, n, hct, hkept ▸ hm⟩
  rw [hreg, lift, hset]

theorem registerAll {rest : List (NodeId × Except NodeError Version)}
    (hr : resolver.Reaches q st (.registering rest ids) r)
    (hrest : ∀ v ∈ rest.map Prod.snd, ∃ w, v = .ok w) (ha : resolver.Abreast q st m r) :
    ∃ r', Run.registerAll (resolver.session q) rest r = .ok () r' ∧
      resolver.Abreast q st m r' := by
  induction rest generalizing r with
  | nil => exact ⟨r, rfl, ha⟩
  | cons p rest ih =>
    obtain ⟨x, v⟩ := p
    obtain ⟨w, rfl⟩ := hrest v (List.mem_cons_self ..)
    obtain ⟨r₁, hreg, ha₁⟩ := h.register hr ha
    obtain ⟨r₂, hrun, ha₂⟩ :=
      ih (hr.register hreg) (fun v hv => hrest v (List.mem_cons_of_mem _ hv)) ha₁
    refine ⟨r₂, ?_, ha₂⟩
    rw [Run.registerAll, bind_of_ok hreg, hrun]

theorem described {st' : σ} (hl : resolver.source.Later st st') (a : Artifact) :
    ∃ d, ((resolver.source.description (resolver.session q).limits.fetch a).ask st').1 = .ok d := by
  obtain ⟨d, hd⟩ := h.answered st' hl a
  refine ⟨d, ?_⟩
  have hf := h.fetched
  change ((resolver.source.description resolver.config.limits.fetch a).ask st').1 = .ok d
  unfold Source.description Inquiry.bounded
  cases hlimit : resolver.config.limits.fetch with
  | none => exact hd
  | some l =>
    dsimp only
    rw [if_neg (not_lt.mpr (hf l hlimit))]
    exact hd

theorem due (hr : resolver.Reaches q st (.registering [] ids) r) (hids : ids.Pairwise (· < ·))
    (ha : resolver.Abreast q st m r) {rest : List (NodeId × SourceAnswer Descriptor)}
    (hs : fetchAll (resolver.session q) ids r = .ok rest r') :
    r'.collection = r.collection ∧ Due rest r'.collection := by
  obtain ⟨hh, -⟩ := holds_of_reaches hr
  obtain ⟨-, enc, n, hc, -⟩ := ha
  obtain ⟨hcol, -, hfst, hasked⟩ := of_fetchAll_eq_ok hs
  have hsame : r'.collection = r.collection := by
    rw [hcol, ← hc.requeue]
  have hexp : expandable r.collection ids =
      ids.filter fun id =>
        r.collection.graph.isIncluded id && !(r.collection.node id).expanded := by
    rw [expandable, hc.requeue, List.nil_append, eraseDups_eq_self hids.nodup]
  refine ⟨hsame, ?_⟩
  rw [hsame]
  exact {
    sorted := by
      rw [hfst, hexp]
      exact hids.filter _
    included j hj := by
      rw [hfst] at hj
      exact (mem_expandable.mp hj).2.1
    answered d hd := by
      obtain ⟨⟨j, d⟩, hm, rfl⟩ := List.mem_map.mp hd
      obtain ⟨st', hl, rfl⟩ := hasked j d hm
      exact h.described (hh.later.trans hl) _
    young j hj := by cases hh.pending j hj }

theorem describe {d : Descriptor} {rest : List (NodeId × SourceAnswer Descriptor)}
    (hr : resolver.Reaches q st (.describing ((x, .ok d) :: rest) created) r)
    (hd : Due ((x, .ok d) :: rest) r.collection) (ha : resolver.Abreast q st m r) :
    ∃ level r', Run.describe (resolver.session q) x (.ok d) r = .ok level r' ∧
      Due rest r'.collection ∧ resolver.Abreast q st (m + 1) r' := by
  obtain ⟨hh, -, hdes⟩ := holds_of_reaches hr
  have hs := hh.steady.sound
  obtain ⟨ht, enc, n, hc, hm⟩ := ha
  have hx := hdes x (.ok d) (List.mem_cons_self ..)
  have hi : (r.collection.node x).state = .included := hd.included x (List.mem_cons_self ..)
  obtain ⟨hfirst, hsorted⟩ := List.pairwise_cons.mp hd.sorted
  have hnx : n ≤ x := by
    by_contra hn
    have he := (hc.expanded x).mpr ⟨not_le.mp hn, hi⟩
    rw [hx.expanded] at he
    cases he
  -- the nodes in between are neither pending nor to be expanded
  have hbetween : ∀ j : ℕ, n ≤ j → j < x → (r.collection.node j).state ≠ .pending ∧
      (r.collection.node j).state ≠ .included := by
    intro j hnj hjx
    constructor
    · intro hp
      exact absurd (hd.young j hp x (List.mem_cons_self ..)) hjx.not_gt
    · intro hji
      have hje : (r.collection.node j).expanded = false := by
        rw [Bool.eq_false_iff]
        exact fun he => absurd (hc.lt_of_expanded he) (not_lt.mpr hnj)
      rcases hh.waiting j hji hje with hq | ⟨e, hje⟩
      · rw [hc.requeue] at hq
        cases hq
      · rcases List.mem_cons.mp hje with hje | hje
        · exact hjx.ne (congrArg Prod.fst hje)
        · exact absurd (hfirst j (List.mem_map_of_mem (f := Prod.fst) hje)) hjx.not_gt
  obtain ⟨hct, hkept⟩ := hc.expand hs hi hnx hbetween rfl h.unfiltered (hx.describes d rfl)
  refine ⟨(r.collection.expand (resolver.session q).rules x d).1,
    { r with collection := (r.collection.expand (resolver.session q).rules x d).2 }, ?_, ?_, ht,
    _, _, hct, ?_⟩
  · unfold Run.describe
    rw [bind_of_ok (collected_eq r), isIncluded_iff.mpr hi]
    rfl
  · have hold {j : ℕ} (hj : j < r.collection.graph.size) :
        ((r.collection.expand (resolver.session q).rules x d).2.node j).state =
          (r.collection.node j).state :=
      state_expand hx.lt_size d hj
    have hlt : ∀ y ∈ rest.map Prod.fst, y < r.collection.graph.size := fun y hy =>
      Graph.lt_size_of_isIncluded (isIncluded_iff.mpr (hd.included y (List.mem_cons_of_mem _ hy)))
    exact {
      sorted := hsorted
      included j hj := (hold (hlt j hj)).trans (hd.included j (List.mem_cons_of_mem _ hj))
      answered e he := hd.answered e (List.mem_cons_of_mem _ he)
      young j hj y hy := by
        by_cases hjs : j < r.collection.graph.size
        · exact hd.young j ((hold hjs).symm.trans hj) y (List.mem_cons_of_mem _ hy)
        · exact (hlt y hy).trans_le (not_lt.mp hjs) }
  · rw [hkept, List.length_append, hm]
    rfl

theorem describeAll {rest : List (NodeId × SourceAnswer Descriptor)}
    (hr : resolver.Reaches q st (.describing rest created) r) (hd : Due rest r.collection)
    (ha : resolver.Abreast q st m r) :
    ∃ next r', Run.describeAll (resolver.session q) rest r = .ok next r' ∧
      resolver.Abreast q st (m + rest.length) r' ∧ (rest = [] → next = []) := by
  induction rest generalizing r created m with
  | nil => exact ⟨[], r, rfl, ha, fun _ => rfl⟩
  | cons p rest ih =>
    obtain ⟨x, d⟩ := p
    obtain ⟨e, rfl⟩ := hd.answered d (List.mem_cons_self ..)
    obtain ⟨level, r₁, hdes, hd₁, ha₁⟩ := h.describe hr hd ha
    obtain ⟨next, r₂, hrun, ha₂, -⟩ := ih (hr.describe hdes) hd₁ ha₁
    refine ⟨level ++ next, r₂, ?_, ?_, nofun⟩
    · rw [Run.describeAll, bind_of_ok hdes, bind_of_ok hrun]
      rfl
    · rw [List.length_cons, Nat.add_comm rest.length, ← Nat.add_assoc]
      exact ha₂

theorem round (hr : resolver.Reaches q st (.level ids) r) (hn : r.isSettled ids = false)
    (ha : resolver.Abreast q st m r) :
    Goes (resolver.session q) (Run.round (resolver.session q) ids) r fun next r' =>
      ∃ m', resolver.Abreast q st m' r' ∧ (m < m' ∨ next = []) := by
  have hids : ids.Pairwise (· < ·) := (holds_of_reaches hr).order.sorted
  unfold Run.round
  refine .bind (goes_selectAll ha.1) fun selected r₁ hsel ht₁ => ?_
  obtain ⟨hc₁, -⟩ := of_selectAll_eq_ok hsel
  have ha₁ : resolver.Abreast q st m r₁ := ⟨ht₁, by rw [hc₁]; exact ha.2⟩
  have hr₁ : resolver.Reaches q st (.registering selected ids) r₁ := hr.select hn hsel
  obtain ⟨r₂, hreg, ha₂⟩ := h.registerAll hr₁ (h.selected hr hsel) ha₁
  have hr₂ : resolver.Reaches q st (.registering [] ids) r₂ := reaches_registerAll hr₁ hreg
  refine .step hreg (.bind (goes_fetchAll ha₂.1) fun rest r₃ hfetch ht₃ => ?_)
  obtain ⟨hc₃, hdue⟩ := h.due hr₂ hids ha₂ hfetch
  have ha₃ : resolver.Abreast q st m r₃ := ⟨ht₃, by rw [hc₃]; exact ha₂.2⟩
  obtain ⟨next, r₄, hdes, ha₄, hnext⟩ := h.describeAll (hr₂.fetch hfetch) hdue ha₃
  refine .of_ok hdes ⟨_, ha₄, ?_⟩
  cases rest with
  | nil => exact .inr (hnext rfl)
  | cons p rest => exact .inl (Nat.lt_add_of_pos_right (Nat.succ_pos _))

theorem le_ncard (ha : resolver.Abreast q st m r) :
    m ≤ {k | ∃ d, resolver.Declares q st d ∧
      ∃ x ∈ d.dependencies, x.coordinate.key = k}.ncard := by
  obtain ⟨-, enc, n, hc, rfl⟩ := ha
  have hstart : (⟨q.direct, []⟩ : Roster).Within {k | ∃ d, resolver.Declares q st d ∧
      ∃ x ∈ d.dependencies, x.coordinate.key = k} := by
    refine ⟨fun e he => ?_, nofun, .nil⟩
    obtain ⟨x, hx, rfl⟩ := List.mem_map.mp he
    exact ⟨q.descriptor, .inl rfl, x, hx, rfl⟩
  have hend := hstart.chain hc.chain fun c v d hd x hx => ⟨d, .inr ⟨c, v, hd⟩, x, hx, rfl⟩
  exact hend.length_le h.finite

theorem rounds {fuel : ℕ} (hr : resolver.Reaches q st (.level ids) r)
    (ha : resolver.Abreast q st m r)
    (hf : {k | ∃ d, resolver.Declares q st d ∧
      ∃ x ∈ d.dependencies, x.coordinate.key = k}.ncard + 2 ≤ m + fuel) :
    Goes (resolver.session q) (Run.rounds (resolver.session q) fuel ids) r fun b r' =>
      b = true ∧ ∃ m', resolver.Abreast q st m' r' := by
  induction fuel generalizing ids r m with
  | zero =>
    have hle := h.le_ncard ha
    omega
  | succ fuel ih =>
    unfold Run.rounds
    refine .step (get_eq r) ?_
    by_cases hset : r.isSettled ids = true
    · rw [if_pos hset]
      exact .of_ok rfl ⟨rfl, m, ha⟩
    · rw [if_neg hset]
      refine .bind (h.round hr (Bool.eq_false_iff.mpr hset) ha) fun next r' hs => ?_
      rintro ⟨m', ha', hlt | rfl⟩
      · exact ih (reaches_round hr (Bool.eq_false_iff.mpr hset) hs) ha' (by omega)
      · exact .of_ok (rounds_of_settled ha'.isSettled_nil fuel) ⟨rfl, m', ha'⟩

end IsPlain

end Resolver

end Mediation
