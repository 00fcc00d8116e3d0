import Mediation.Proofs.Run.Evidence
import Mediation.Proofs.Collection.Discovery
import Mediation.Proofs.Collection.Standing

/-! # Registration

To register a pending node is a chain of moves at the end of which it is no longer
pending. What it gets as a version is offered by the source.
-/

namespace Mediation

namespace Collection

variable {rules : Rules} {ev : Evidence} {s t : Collection} {i x w : ℕ}

/-- What a step made of moves leaves behind: a node at hand that is not pending. -/
structure Arrives (rules : Rules) (ev : Evidence) (x : ℕ) (s t : Collection) : Prop where
  moves : Moves rules ev x (s, []) (t, [])
  state : (t.node x).state ≠ .pending

namespace Arrives

/-- A move after which the node at hand is not pending, and the elections it calls for. -/
theorem of_move {a b : Situation} (m : Move rules ev x a b) (h : Steady a) (ha : a = (s, []))
    (hx : (b.1.node x).state ≠ .pending) (hb : Moves rules ev x b (t, [])) :
    Arrives rules ev x s t := by
  subst ha
  exact ⟨.head m hb, fun hp => hx ((Keeps.of_moves hb (m.steady h)).pending x hp).1⟩

theorem head {u : Collection} (m : Moves rules ev x (s, []) (t, [])) (h : Arrives rules ev x t u) :
    Arrives rules ev x s u := ⟨m.trans h.moves, h.state⟩

end Arrives

theorem state_displace (hs : s.Sound) (hp : (s.node x).state = .pending)
    (hw : s.winner? (s.node x).key = some i) :
    ((s.displace (s.node x).key i x).1.node x).state ≠ .pending := by
  have hx := Steady.pending_contender hs hp
  obtain ⟨hi, -, hii⟩ := of_winner?_eq_some hw
  have hne : x ≠ i := by
    rintro rfl
    rw [hp] at hii
    cases hii
  have ha := agrees_displace hs.tree (hs.lt_size_of_contender hi) (hs.lt_size_of_contender hx)
    hne (hs.fresh i) (s.node x).key hp
  rw [ha.state]
  split
  · rename_i hm
    rw [hs.topple_node hi, if_neg hne, if_pos hm]
    exact disabledState_ne_pending _
  · rw [node_accept, size_topple, if_pos ⟨rfl, hs.lt_size_of_contender hx⟩]
    exact nofun

variable (h : Steady (s, []))
include h

theorem arrives_of_reject {e : NodeError} (hp : (s.node x).state = .pending)
    (hf : fail rules x e s = .ok () t) : Arrives rules ev x s t := by
  obtain ⟨hf, hr⟩ := of_fail_eq_ok hf
  refine .of_move (.reject e hp hf) h rfl ?_ (Moves.of_reelect hr)
  rw [state_collapse h.sound (Steady.pending_contender h.sound hp) (.inl hp)]
  exact nofun

theorem arrives_of_settle (hr : settle rules x s = .ok () t) (hp : (s.node x).state = .pending)
    (hb : (s.node x).IsBacked ev) (hm : s.HasMet x) (hlast : s.IsLatest x) :
    Arrives rules ev x s t := by
  have hx := Steady.pending_contender h.sound hp
  rw [settle_eq] at hr
  split at hr
  · rename_i current hw
    rw [resolveConflict_eq] at hr
    split at hr
    · cases hr
    · rename_i w he
      split at hr
      · rename_i hx
        subst hx
        exact .of_move (.displace hp hb hw (hlast.lt_of_winner h.sound hp hw) he hm) h rfl
          (state_displace h.sound hp hw) (Moves.of_reelect hr)
      · rename_i hne
        cases hr
        refine .of_move (.yield hp hb hw he hne hm) h rfl ?_ .refl
        rw [(agrees_yieldTo (h.sound.fresh x (h.sound.idle x hp))).state, h.sound.topple_node hx,
          if_pos rfl]
        exact nofun
  · rename_i hw
    split at hr
    · rename_i w he
      cases hr
      refine .of_move (.seat hp hb hw he) h rfl ?_ .refl
      rw [h.sound.accept_node hx, if_pos rfl]
      exact nofun
    · cases hr

end Collection

namespace Run

open Collection

variable {σ : Type} {session : Session σ} {st : σ} {r r' : Run σ} {i x : ℕ} {k : Constraint}

/-- What a source tells from a state on, for the source of a session. -/
abbrev told (session : Session σ) (st : σ) : Evidence := session.source.evidence st

theorem of_reselect_eq_ok {res : Except NodeError (Option Version)}
    (hl : session.source.Later st r.source) (h : reselect session i k r = .ok res r') :
    r'.collection = r.collection ∧ session.source.Later st r'.source ∧
      (res = .ok none → keepsVersion (r.collection.node i).artifact k = true) ∧
      ∀ v, res = .ok (some v) → keepsVersion (r.collection.node i).artifact k = false ∧
        (told session st).offers (r.collection.node i).artifact.coordinate k v := by
  unfold reselect at h
  obtain ⟨_, _, hc, h⟩ := bind_eq_ok.mp h
  obtain ⟨rfl, rfl⟩ := collected_eq_ok.mp hc
  split at h
  · rename_i hk
    obtain ⟨rfl, rfl⟩ := pure_eq_ok.mp h
    exact ⟨rfl, hl, fun _ => hk, nofun⟩
  · rename_i hk
    obtain ⟨_, r₁, hc, h⟩ := bind_eq_ok.mp h
    obtain ⟨hc₁, hl₁⟩ := of_count hc
    obtain ⟨a, r₂, ha, h⟩ := bind_eq_ok.mp h
    obtain ⟨rfl, rfl⟩ := pure_eq_ok.mp h
    obtain ⟨hcol, hlater, ha⟩ := of_ask_eq_ok Source.isAsked_selection ha
    rw [hl₁] at hlater ha
    refine ⟨hcol.trans hc₁, hl.trans hlater, fun hn => ?_, fun v hv => ?_⟩
    · cases a <;> cases hn
    · cases a with
      | error e => cases hv
      | ok w =>
        cases hv
        exact ⟨Bool.eq_false_iff.mpr hk, Source.offers_of_selection hl ha.symm⟩

theorem isBacked_of_core {ev : Evidence} {m n : Node} (h : m.core = n.core) (hn : n.IsBacked ev) :
    m.IsBacked ev := by
  have hc : n.core.IsBacked ev := hn
  rw [← h] at hc
  exact hc

theorem isRival_of_sameShape {s t : Collection} {current : ℕ} (h : s.SameShape t)
    (hr : s.IsRival x current) : t.IsRival x current where
  mem := h.contenders.symm ▸ hr.mem
  included := isIncluded_iff.mpr ((h.state current).trans (isIncluded_iff.mp hr.included))
  key := (h.key current).trans (hr.key.trans (h.key x).symm)

def follow (session : Session σ) (current : NodeId) (c : Constraint) : RunM σ Unit := do
  alter (·.constrain current c)
  match ← reselect session current c with
  | .error e => lift (fail session.rules current e)
  | .ok none => return
  | .ok (some v) => lift (changeVersion session.rules current v)

theorem of_follow_eq_ok {current : ℕ} {u : Unit} (h : Steady (r.collection, []))
    (hn : r.collection.IsNarrowing x current k) (hx : (r.collection.node x).constraint = k)
    (hb : (r.collection.node x).IsBacked (told session st)) (ht : r.collection.IsCandid)
    (hl : session.source.Later st r.source) (hr : follow session current k r = .ok u r') :
    Moves session.rules (told session st) x (r.collection, []) (r'.collection, []) ∧
      session.source.Later st r'.source ∧ ((r'.collection.node x).state = .pending →
        (r'.collection.node x).IsBacked (told session st) ∧ r'.collection.HasMet x) := by
  have hi := isIncluded_iff.mp hn.rival.included
  have hne : x ≠ current := by
    rintro rfl
    rw [hn.pending] at hi
    cases hi
  have hk : Keeps current r.collection (r.collection.constrain current k) :=
    .constrain (.inl rfl) k
  have hsh := sameShape_constrain r.collection current k
  have hst := hsh.steady h
  have hi' := (hsh.state current).trans hi
  have ha : ((r.collection.constrain current k).node current).artifact =
      (r.collection.node current).artifact :=
    view_update Node.artifact (by intro _; rfl) _ _ _
  have hself : ((r.collection.constrain current k).node current).constraint = k := by
    rw [Collection.constrain, node_update_self (h.sound.lt_size_of_contender hn.rival.mem)]
  have hother : (r.collection.constrain current k).node x = r.collection.node x :=
    node_update_of_ne (Ne.symm hne)
  have heq : ((r.collection.constrain current k).node current).constraint =
      ((r.collection.constrain current k).node x).constraint := by rw [hself, hother, hx]
  have hrival := isRival_of_sameShape hsh hn.rival
  have hback {t : Collection} (hk : Keeps current r.collection t)
      (hmet : (t.node x).constraint = ((r.collection.constrain current k).node x).constraint →
        (t.node x).key = ((r.collection.constrain current k).node x).key → t.HasMet x)
      (hp : (t.node x).state = .pending) :
      (t.node x).IsBacked (told session st) ∧ t.HasMet x := by
    have hcore := (hk.pending x hp).2 hne
    rw [hother] at hmet
    exact ⟨isBacked_of_core hcore hb,
      hmet (congrArg Node.constraint hcore :) (congrArg Node.key hcore :)⟩
  unfold follow at hr
  obtain ⟨_, r₁, hc, hr⟩ := bind_eq_ok.mp hr
  obtain ⟨hc₁, hl₁⟩ := of_alter hc
  obtain ⟨res, r₂, hres, hr⟩ := bind_eq_ok.mp hr
  obtain ⟨hc₂, hl₂, hnone, hsome⟩ := of_reselect_eq_ok (hl₁.symm ▸ hl) hres
  rw [hc₁, ha] at hnone hsome
  rw [hc₁] at hc₂
  cases res with
  | error e =>
    obtain ⟨hf, hl₃⟩ := of_lift hr
    rw [hc₂] at hf
    obtain ⟨hf, hre⟩ := of_fail_eq_ok hf
    rw [hsh.isFatal] at hf
    refine ⟨.head (.abandon e hn hx hf) (Moves.of_reelect hre), hl₃.symm ▸ hl₂,
      hback ?_ fun _ => hasMet_of_collapse hst hrival (ht.constrain current k) hre⟩
    have hm : Moves session.rules (told session st) current _ (r'.collection, []) :=
      Moves.of_reelect hre
    exact (hk.trans (.collapse hst hn.rival.mem (.inr hi') e)).trans
      (.of_moves hm (hst.collapse hn.rival.mem (.inr hi') e))
  | ok choice =>
    cases choice with
    | none =>
      obtain ⟨-, rfl⟩ := pure_eq_ok.mp hr
      rw [hc₂]
      exact ⟨.single (.retain hn hx (hnone rfl)), hl₂,
        hback hk fun _ _ => hasMet_of_eq hst.sound hrival heq⟩
    | some v =>
      obtain ⟨hf, hl₃⟩ := of_lift hr
      rw [hc₂, changeVersion_eq] at hf
      obtain ⟨hkv, hv⟩ := hsome v rfl
      refine ⟨.head (.shift hn hx hkv hv) (Moves.of_reelect hf), hl₃.symm ▸ hl₂,
        hback ?_ (hasMet_of_rebase hst hrival heq hf)⟩
      have hm : Moves session.rules (told session st) current _ (r'.collection, []) :=
        Moves.of_reelect hf
      exact (hk.trans (.rebase hst.sound hn.rival.mem hi' v)).trans
        (.of_moves hm (hst.rebase hn.rival.mem v))

/-- A newcomer that keeps its version under a constraint, or is given another one. -/
theorem moves_choice {ev : Evidence} {rules : Rules} {s : Collection} {choice : Option Version}
    {current : ℕ} (hs : s.Sound) (hp : (s.node x).state = .pending) (hne : x ≠ current)
    (hnone : choice = none → keepsVersion (s.node x).artifact (s.node x).constraint = true)
    (hsome : ∀ v, choice = some v →
      ev.offers (s.node x).artifact.coordinate (s.node x).constraint v) :
    Moves rules ev x (s, []) (choice.elim s (s.select x), []) ∧
      s.SameShape (choice.elim s (s.select x)) ∧
      ((choice.elim s (s.select x)).node x).constraint = (s.node x).constraint ∧
      (choice.elim s (s.select x)).node current = s.node current ∧
      ((choice.elim s (s.select x)).node x).IsBacked ev := by
  cases choice with
  | none => exact ⟨.refl, (Agrees.refl s).sameShape, rfl, rfl, .inl (hnone rfl)⟩
  | some v =>
    have hx : x < s.graph.size := hs.lt_size_of_contender (Steady.pending_contender hs hp)
    have hsel : (s.select x v).node x =
        { s.node x with artifact := (s.node x).artifact.select v } := node_update_self hx
    have hv := hsome v rfl
    refine ⟨.single (.choose hp hv), sameShape_select s x v,
      (congrArg Node.constraint hsel).trans rfl, node_update_of_ne hne,
      .inr ⟨v, congrArg Node.version hsel, ?_⟩⟩
    change ev.offers ((s.select x v).node x).artifact.coordinate
      ((s.select x v).node x).constraint v
    rw [hsel]
    exact hv

/-- Gives both sides of a conflict a constraint, and moves them to versions that are left. -/
def narrow (session : Session σ) (current newcomer : NodeId) (c : Constraint) (e : Event) :
    RunM σ Unit := do
  alter (·.emit e)
  alter (·.constrain newcomer c)
  match ← reselect session newcomer c with
  | .error e => lift (fail session.rules newcomer e)
  | .ok choice =>
    alter fun s => choice.elim s (s.select newcomer)
    follow session current c

theorem of_narrow_eq_ok {current : ℕ} {e : Event} {u : Unit} (h : Steady (r.collection, []))
    (hn : r.collection.IsNarrowing x current k)
    (hv : (r.collection.node x).version.isSome = true)
    (hd : (r.collection.node x).constraint = (r.collection.node x).declaredConstraint)
    (ht : r.collection.IsCandid) (hl : session.source.Later st r.source)
    (hrun : narrow session current x k e r = .ok u r') :
    Moves session.rules (told session st) x (r.collection, []) (r'.collection, []) ∧
      session.source.Later st r'.source ∧ ((r'.collection.node x).state = .pending →
        (r'.collection.node x).IsBacked (told session st) ∧ r'.collection.HasMet x) := by
  have hp := hn.pending
  have hx : x < r.collection.graph.size :=
    h.sound.lt_size_of_contender (Steady.pending_contender h.sound hp)
  have hne : x ≠ current := by
    rintro rfl
    have hi := isIncluded_iff.mp hn.rival.included
    rw [hp] at hi
    cases hi
  -- the collection after the newcomer was given the constraint
  have hm : Moves session.rules (told session st) x (r.collection, [])
      ((r.collection.emit e).constrain x k, []) :=
    .head (.tell e) (.single (.tighten ⟨hp, ⟨hn.rival.mem, hn.rival.included, hn.rival.key⟩,
      hn.hard, hn.meeting⟩ hv hd))
  have hsh : r.collection.SameShape ((r.collection.emit e).constrain x k) :=
    (Agrees.emit _ e).sameShape.trans (sameShape_constrain _ x k)
  have hself : ((r.collection.emit e).constrain x k).node x =
      { r.collection.node x with constraint := k } := node_update_self hx
  have hother : ((r.collection.emit e).constrain x k).node current = r.collection.node current :=
    node_update_of_ne hne
  unfold narrow at hrun
  obtain ⟨_, r₁, h₁, hrun⟩ := bind_eq_ok.mp hrun
  obtain ⟨hc₁, hl₁⟩ := of_alter h₁
  obtain ⟨_, r₂, h₂, hrun⟩ := bind_eq_ok.mp hrun
  obtain ⟨hc₂, hl₂⟩ := of_alter h₂
  rw [hc₁] at hc₂
  have hl' : session.source.Later st r₂.source := by rw [hl₂, hl₁]; exact hl
  obtain ⟨res, r₃, h₃, hrun⟩ := bind_eq_ok.mp hrun
  obtain ⟨hc₃, hl₃, hnone, hsome⟩ := of_reselect_eq_ok hl' h₃
  rw [hc₂] at hc₃ hnone hsome
  generalize (r.collection.emit e).constrain x k = s at hm hsh hself hother hc₃ hnone hsome
  have hs : Steady (s, []) := hm.steady h
  have hps : (s.node x).state = .pending := (hsh.state x).trans hp
  cases res with
  | error e' =>
    obtain ⟨hf, hl₄⟩ := of_lift hrun
    rw [hc₃] at hf
    have ha : Arrives session.rules (told session st) x _ _ :=
      (arrives_of_reject hs hps hf).head hm
    exact ⟨ha.moves, hl₄.symm ▸ hl₃, fun hx => absurd hx ha.state⟩
  | ok choice =>
    obtain ⟨_, r₄, h₄, hrun⟩ := bind_eq_ok.mp hrun
    obtain ⟨hc₄, hl₄⟩ := of_alter h₄
    rw [hc₃] at hc₄
    have hks : (s.node x).constraint = k := by rw [hself]
    obtain ⟨hm₄, hsh₄, hk, hcur, hb⟩ := moves_choice hs.sound hps hne
      (fun hc => hks ▸ hnone (congrArg Except.ok hc)) fun v hc =>
        hks ▸ (hsome v (congrArg Except.ok hc)).2
    rw [← hc₄] at hm₄ hsh₄ hk hcur hb
    have hd : (r₄.collection.node x).declaredConstraint =
        (r.collection.node x).declaredConstraint :=
      congrArg Site.constraint ((hsh.trans hsh₄).site x)
    have hn₄ : r₄.collection.IsNarrowing x current k := by
      refine ⟨(hsh₄.state x).trans hps, isRival_of_sameShape (hsh.trans hsh₄) hn.rival, ?_, ?_⟩
      · rw [hcur, hother, hd, hn.hard]
      · rw [hcur, hother, hd, hn.meeting]
    obtain ⟨hm₅, hl₅, hb₅⟩ := of_follow_eq_ok (hm₄.steady hs) hn₄ (hk.trans hks) hb
      (ht.moves (hm.trans hm₄) h) (hl₄.symm ▸ hl₃) hrun
    exact ⟨(hm.trans hm₄).trans hm₅, hl₅, hb₅⟩

theorem restrict_eq (session : Session σ) (current newcomer : NodeId) :
    restrict session current newcomer = (do
      let s ← collected
      if (s.node current).constraint.isSoft && (s.node newcomer).constraint.isSoft then return
      match (s.node current).constraint.intersect (s.node newcomer).constraint with
      | .error e => lift (fail session.rules newcomer (.constraint e))
      | .ok c =>
        narrow session current newcomer c
          (.narrowed (s.node current).artifact (s.node newcomer).artifact c)) := rfl

theorem of_restrict_eq_ok {current : ℕ} {u : Unit} (h : Steady (r.collection, []))
    (hp : (r.collection.node x).state = .pending)
    (hd : (r.collection.node x).constraint = (r.collection.node x).declaredConstraint)
    (hr : r.collection.IsRival x current) (hb : (r.collection.node x).IsBacked (told session st))
    (ht : r.collection.IsCandid) (hl : session.source.Later st r.source)
    (hrun : restrict session current x r = .ok u r') :
    Moves session.rules (told session st) x (r.collection, []) (r'.collection, []) ∧
      session.source.Later st r'.source ∧ ((r'.collection.node x).state = .pending →
        (r'.collection.node x).IsBacked (told session st) ∧ r'.collection.HasMet x) := by
  rw [restrict_eq] at hrun
  obtain ⟨_, _, hc, hrun⟩ := bind_eq_ok.mp hrun
  obtain ⟨rfl, rfl⟩ := collected_eq_ok.mp hc
  split at hrun
  · rename_i hsoft
    obtain ⟨-, rfl⟩ := pure_eq_ok.mp hrun
    refine ⟨.refl, hl, fun _ => ⟨hb, fun w hw => .inl ?_⟩⟩
    obtain ⟨hwc, hwk, hwi⟩ := of_winner?_eq_some hw
    obtain rfl : w = current := h.sound.unique w current (h.sound.ne_root_of_contender hwc)
      (h.sound.ne_root_of_contender hr.mem) hwi (isIncluded_iff.mp hr.included)
      (hwk.trans hr.key.symm)
    exact hsoft
  · rename_i hs
    cases hcon : (r.collection.node current).constraint.intersect
      (r.collection.node x).constraint with
    | error e =>
      rw [hcon] at hrun
      obtain ⟨hf, hl'⟩ := of_lift hrun
      have ha : Arrives session.rules (told session st) x _ _ := arrives_of_reject h hp hf
      exact ⟨ha.moves, hl'.symm ▸ hl, fun hx => absurd hx ha.state⟩
    | ok c =>
      rw [hcon] at hrun
      rw [Bool.not_eq_true] at hs
      exact of_narrow_eq_ok h ⟨hp, hr, hd ▸ hs, hd ▸ hcon⟩ (isSome_of_isBacked hb) hd ht hl hrun

/-- Lets a node with a version meet the winner of its identity, if there is one. -/
def confront (session : Session σ) (id : NodeId) (k : Key) : RunM σ Unit := do
  if let some current := (← collected).winner? k then
    restrict session current id
  if ((← collected).node id).state = .pending then lift (settle session.rules id)

theorem register_eq (session : Session σ) (id : NodeId) (selection : Except NodeError Version) :
    register session id selection = (do
      let s ← collected
      if (s.node id).state ≠ .pending then return
      match selection with
      | .error e => lift (fail session.rules id e)
      | .ok v =>
        alter (·.select id v)
        let s ← collected
        if (s.node id).constraint.isRange then
          alter (·.emit (.chosenFromRange (s.node id).artifact))
        confront session id (s.node id).key) := by
  unfold register confront
  rfl

theorem of_confront_eq_ok {u : Unit} (h : Steady (r.collection, []))
    (hp : (r.collection.node x).state = .pending)
    (hd : (r.collection.node x).constraint = (r.collection.node x).declaredConstraint)
    (hb : (r.collection.node x).IsBacked (told session st)) (hlast : r.collection.IsLatest x)
    (ht : r.collection.IsCandid) (hl : session.source.Later st r.source)
    (hrun : confront session x (r.collection.node x).key r = .ok u r') :
    Arrives session.rules (told session st) x r.collection r'.collection ∧
      session.source.Later st r'.source := by
  unfold confront at hrun
  obtain ⟨_, _, hc, hrun⟩ := bind_eq_ok.mp hrun
  obtain ⟨rfl, rfl⟩ := collected_eq_ok.mp hc
  suffices hg : ∀ r₁ : Run σ,
      Moves session.rules (told session st) x (r.collection, []) (r₁.collection, []) →
      session.source.Later st r₁.source → ((r₁.collection.node x).state = .pending →
        (r₁.collection.node x).IsBacked (told session st) ∧ r₁.collection.HasMet x) →
      (do
        if ((← collected).node x).state = NodeState.pending then
          lift (settle session.rules x)) r₁ = .ok u r' →
      Arrives session.rules (told session st) x r.collection r'.collection ∧
        session.source.Later st r'.source by
    cases hw : r.collection.winner? (r.collection.node x).key with
    | none =>
      rw [hw] at hrun
      refine hg r .refl hl (fun _ => ⟨hb, fun w hw' => ?_⟩) hrun
      rw [hw] at hw'
      cases hw'
    | some current =>
      rw [hw] at hrun
      obtain ⟨_, r₁, hr, hrun⟩ := bind_eq_ok.mp hrun
      obtain ⟨hcm, hck, hci⟩ := of_winner?_eq_some hw
      obtain ⟨hm, hl', hb'⟩ :=
        of_restrict_eq_ok h hp hd ⟨hcm, isIncluded_iff.mpr hci, hck⟩ hb ht hl hr
      exact hg r₁ hm hl' hb' hrun
  intro r₁ hm hl₁ hb₁ hrun
  obtain ⟨_, _, hc, hrun⟩ := bind_eq_ok.mp hrun
  obtain ⟨rfl, rfl⟩ := collected_eq_ok.mp hc
  split at hrun
  · rename_i hp₁
    obtain ⟨hs, hl₂⟩ := of_lift hrun
    have ha := arrives_of_settle (hm.steady h) hs hp₁ (hb₁ hp₁).1 (hb₁ hp₁).2
      (hlast.of_keeps (.of_moves hm h))
    exact ⟨ha.head hm, hl₂.symm ▸ hl₁⟩
  · rename_i hp₁
    obtain ⟨-, rfl⟩ := pure_eq_ok.mp hrun
    exact ⟨⟨hm, hp₁⟩, hl₁⟩

/-- To register a node with a version that is offered for it is a chain of moves, after which
the node is not pending. -/
theorem of_register_eq_ok {selection : Except NodeError Version} {u : Unit}
    (h : Steady (r.collection, []))
    (ho : (r.collection.node x).state = .pending → ∀ v, selection = .ok v →
      (told session st).offers (r.collection.node x).artifact.coordinate
        (r.collection.node x).constraint v)
    (hd : (r.collection.node x).state = .pending →
      (r.collection.node x).constraint = (r.collection.node x).declaredConstraint)
    (hlast : r.collection.IsLatest x) (ht : r.collection.IsCandid)
    (hl : session.source.Later st r.source) (hrun : register session x selection r = .ok u r') :
    Arrives session.rules (told session st) x r.collection r'.collection ∧
      session.source.Later st r'.source := by
  rw [register_eq] at hrun
  obtain ⟨_, _, hc, hrun⟩ := bind_eq_ok.mp hrun
  obtain ⟨rfl, rfl⟩ := collected_eq_ok.mp hc
  split at hrun
  · rename_i hp
    obtain ⟨-, rfl⟩ := pure_eq_ok.mp hrun
    exact ⟨⟨.refl, hp⟩, hl⟩
  · rename_i hp
    have hp := not_not.mp hp
    cases selection with
    | error e =>
      obtain ⟨hf, hl'⟩ := of_lift hrun
      exact ⟨arrives_of_reject h hp hf, hl'.symm ▸ hl⟩
    | ok v =>
      have hv := ho hp v rfl
      have hx : x < r.collection.graph.size :=
        h.sound.lt_size_of_contender (Steady.pending_contender h.sound hp)
      obtain ⟨_, r₁, h₁, hrun⟩ := bind_eq_ok.mp hrun
      obtain ⟨hc₁, hl₁⟩ := of_alter h₁
      obtain ⟨_, _, hc, hrun⟩ := bind_eq_ok.mp hrun
      obtain ⟨rfl, rfl⟩ := collected_eq_ok.mp hc
      have hself : (r.collection.select x v).node x =
          { r.collection.node x with artifact := (r.collection.node x).artifact.select v } :=
        node_update_self hx
      have hm : Moves session.rules (told session st) x (r.collection, [])
          (r.collection.select x v, []) := .single (.choose hp hv)
      suffices hg : ∀ r₂ : Run σ, (r.collection.select x v).Agrees r₂.collection →
          Moves session.rules (told session st) x (r.collection, []) (r₂.collection, []) →
          session.source.Later st r₂.source →
          confront session x (r₁.collection.node x).key r₂ = .ok u r' →
          Arrives session.rules (told session st) x r.collection r'.collection ∧
            session.source.Later st r'.source by
        split at hrun
        · obtain ⟨_, r₂, h₂, hrun⟩ := bind_eq_ok.mp hrun
          obtain ⟨hc₂, hl₂⟩ := of_alter h₂
          rw [hc₁] at hc₂
          refine hg r₂ (hc₂ ▸ .emit _ _) ?_ (hl₂ ▸ hl₁ ▸ hl) hrun
          rw [hc₂]
          exact hm.tail (.tell _)
        · exact hg r₁ (hc₁ ▸ .refl _) (hc₁ ▸ hm) (hl₁ ▸ hl) hrun
      intro r₂ ha hm₂ hl₂ hrun
      have hk : (r₁.collection.node x).key = (r₂.collection.node x).key := by
        rw [hc₁, ha.key]
      have hp₂ : (r₂.collection.node x).state = .pending := by
        rw [ha.state, hself, hp]
      have hb : (r₂.collection.node x).IsBacked (told session st) := by
        refine isBacked_of_core (ha.core x) (.inr ⟨v, ?_, ?_⟩)
        · rw [hself]; rfl
        · rw [hself]; exact hv
      have hd₂ : (r₂.collection.node x).constraint = (r₂.collection.node x).declaredConstraint := by
        have h₁ : (r₂.collection.node x).constraint =
            ((r.collection.select x v).node x).constraint :=
          (congrArg Node.constraint (ha.core x) :)
        have h₂ : (r₂.collection.node x).declaredConstraint =
            ((r.collection.select x v).node x).declaredConstraint :=
          (congrArg Node.declaredConstraint (ha.core x) :)
        rw [h₁, h₂, hself]
        exact hd hp
      rw [hk] at hrun
      obtain ⟨har, hl'⟩ := of_confront_eq_ok (hm₂.steady h) hp₂ hd₂ hb
        (hlast.of_keeps (.of_moves hm₂ h)) (ht.moves hm₂ h) hl₂ hrun
      exact ⟨har.head hm₂, hl'⟩

end Run

end Mediation
