import Mediation.Proofs.Collection.Setback
import Mediation.Proofs.Resolution.Lasting
import Mediation.Proofs.Run.Timely

/-! # Encounters

A newcomer whose version was selected meets the winner of its identity, and both are narrowed. A run
comes to such an encounter while it registers a level. What the narrowing comes to is told case by
case: both are spared, the newcomer is refused, or it is settled and the winner keeps its version,
is moved to another one or fails.
-/

namespace Mediation

namespace Collection

variable {rules : Rules} {ev : Evidence} {s t : Collection} {current x : ℕ} {c : Constraint}
  {e : Event} {choice : Option Version}

/-- What becomes of the version of an artifact under a constraint: it is kept, or another one is
offered. -/
inductive Chooses (ev : Evidence) (a : Artifact) (c : Constraint) : Option Version → Prop
  | keep (hk : Run.keepsVersion a c = true) : Chooses ev a c none
  | move {v : Version} (hk : Run.keepsVersion a c = false) (hv : ev.offers a.coordinate c v) :
      Chooses ev a c (some v)

/-- A collection with a newcomer under a constraint, and moved to another version if there is one
for it. -/
def concede (s : Collection) (x : NodeId) (c : Constraint) (e : Event) (choice : Option Version) :
    Collection :=
  choice.elim ((s.emit e).constrain x c) (((s.emit e).constrain x c).select x)

def constrainBoth (s : Collection) (current x : NodeId) (c : Constraint) (e : Event)
    (choice : Option Version) : Collection :=
  (s.concede x c e choice).constrain current c

inductive Narrows (rules : Rules) (ev : Evidence) (current x : NodeId) (s : Collection) :
    Collection → Prop
  | spare (h : ((s.node current).constraint.isSoft && (s.node x).constraint.isSoft) = true) :
      Narrows rules ev current x s s
  | clash {f : ConstraintError} {t : Collection}
      (hm : (s.node current).constraint.intersect (s.node x).constraint = .error f)
      (ht : fail rules x (.constraint f) s = .ok () t) : Narrows rules ev current x s t
  | refuse {c : Constraint} {e : Event} {f : NodeError} {t : Collection}
      (hm : (s.node current).constraint.intersect (s.node x).constraint = .ok c)
      (ht : fail rules x f ((s.emit e).constrain x c) = .ok () t) :
      Narrows rules ev current x s t
  | retain {c : Constraint} {e : Event} {choice : Option Version}
      (hm : (s.node current).constraint.intersect (s.node x).constraint = .ok c)
      (hx : Chooses ev (s.node x).artifact c choice)
      (hc : Chooses ev (s.node current).artifact c none) :
      Narrows rules ev current x s (s.constrainBoth current x c e choice)
  | shift {c : Constraint} {e : Event} {choice : Option Version} {v : Version} {t : Collection}
      (hm : (s.node current).constraint.intersect (s.node x).constraint = .ok c)
      (hx : Chooses ev (s.node x).artifact c choice)
      (hc : Chooses ev (s.node current).artifact c (some v))
      (ht : changeVersion rules current v (s.constrainBoth current x c e choice) = .ok () t) :
      Narrows rules ev current x s t
  | abandon {c : Constraint} {e : Event} {choice : Option Version} {f : NodeError} {t : Collection}
      (hm : (s.node current).constraint.intersect (s.node x).constraint = .ok c)
      (hx : Chooses ev (s.node x).artifact c choice)
      (ht : fail rules current f (s.constrainBoth current x c e choice) = .ok () t) :
      Narrows rules ev current x s t

theorem node_concede_of_ne {j : ℕ} (h : j ≠ x) : (s.concede x c e choice).node j = s.node j := by
  cases choice with
  | none => exact node_update_of_ne h.symm
  | some v => exact (node_update_of_ne h.symm).trans (node_update_of_ne h.symm)

theorem node_concede_self (h : x < s.graph.size) : (s.concede x c e choice).node x =
    { s.node x with
      constraint := c
      artifact := choice.elim (s.node x).artifact (s.node x).artifact.select } := by
  have hc : ((s.emit e).constrain x c).node x = { s.node x with constraint := c } :=
    node_update_self h
  cases choice with
  | none => exact hc
  | some v =>
    have hlt : x < ((s.emit e).constrain x c).graph.size :=
      h.trans_eq (Graph.size_update _ _ _).symm
    exact (node_update_self hlt).trans (by rw [hc]; rfl)

theorem requeue_concede : (s.concede x c e choice).requeue = s.requeue := by
  cases choice <;> rfl

theorem sameShape_concede (s : Collection) (x : NodeId) (c : Constraint) (e : Event)
    (choice : Option Version) : s.SameShape (s.concede x c e choice) := by
  have hc : s.SameShape ((s.emit e).constrain x c) :=
    (Agrees.emit s e).sameShape.trans (sameShape_constrain _ x c)
  cases choice with
  | none => exact hc
  | some v => exact hc.trans (sameShape_select _ x v)

theorem sameShape_constrainBoth : s.SameShape (s.constrainBoth current x c e choice) :=
  (sameShape_concede s x c e choice).trans (sameShape_constrain _ current c)

section Both

variable (hne : x ≠ current)
include hne

theorem node_constrainBoth_current (h : current < s.graph.size) (c : Constraint) (e : Event)
    (choice : Option Version) : (s.constrainBoth current x c e choice).node current =
      { s.node current with constraint := c } := by
  have hlt : current < (s.concede x c e choice).graph.size :=
    h.trans_eq (sameShape_concede s x c e choice).size.symm
  rw [constrainBoth, constrain, node_update_self hlt, node_concede_of_ne hne.symm]

theorem node_constrainBoth_newcomer (h : x < s.graph.size) :
    (s.constrainBoth current x c e choice).node x = { s.node x with
      constraint := c
      artifact := choice.elim (s.node x).artifact (s.node x).artifact.select } := by
  rw [constrainBoth, constrain, node_update_of_ne hne.symm, node_concede_self h]

end Both

variable {i : ℕ} {v : Version}

theorem isFailed_of_fail {f : NodeError} (h : Steady (s, [])) (hi : i ∈ s.contenders)
    (hl : (s.node i).state = .pending ∨ (s.node i).state = .included)
    (ht : fail rules i f s = .ok () t) : t.graph.IsFailed i := by
  have hst := h.collapse hi hl f
  have hm : Moves rules ⟨fun _ _ _ => False, fun _ _ _ => False⟩ i (s.collapse i f) (t, []) :=
    Moves.of_reelect (of_fail_eq_ok ht).2
  have hf := fails_collapse (h.sound.lt_size_of_contender hi) f
  exact hm.preserve_of_steady (P := fun b => b.1.graph.IsFailed i) hst
    (fun _ _ m hs hj => (m.suffers hs).isFailed hj) ((hf.failed i).mpr (.inr rfl))

section Change

variable (h : Steady (s, [])) (hi : i ∈ s.contenders)
  (ht : changeVersion rules i v s = .ok () t)
include h hi ht

theorem mem_requeue_changeVersion (hx : (s.node i).expanded = true) : i ∈ t.requeue := by
  rw [changeVersion_eq] at ht
  have hm : Moves rules ⟨fun _ _ _ => False, fun _ _ _ => False⟩ i (s.rebase i v) (t, []) :=
    Moves.of_reelect ht
  refine (Keeps.of_moves hm (h.rebase hi v)).requeue i ?_
  exact (mem_requeue_rebase v).mpr (.inr ⟨rfl, hx⟩)

/-- A winner that gets another version stays in place, and is cut off from what was below it. -/
theorem core_changeVersion (hii : (s.node i).state = .included) :
    (t.node i).core = ({ s.node i with
      artifact := (s.node i).artifact.select v
      children := []
      expanded := false }).core := by
  rw [changeVersion_eq] at ht
  have hst := h.rebase hi v
  have hcore := core_rebase h.sound hi v
  have hstate : ((s.rebase i v).1.node i).state = .included :=
    (Node.state_of_core hcore).trans hii
  have hin := hst.sound.inPlay (h.sound.ne_root_of_contender hi) (.inr hstate)
  exact (reelect_of_inPlay ht hst hin (by rw [hstate]; decide)).2.trans hcore

end Change

theorem node_enqueue (s : Collection) (i j : NodeId) : (s.enqueue i).node j = s.node j := by
  unfold enqueue
  split <;> rfl

section View

variable {α : Type} (view : Node → α)
  (hv : ∀ (n : Node) st k, view { n with state := st, kept := k } = view n)
  (hc : ∀ n : Node, view { n with children := [], expanded := false } = view n)
include hv hc

/-- Elections show in no view of a node that is without its place and what is below it. -/
theorem view_reelect {ks : List Key} {u : Unit} (h : reelect rules ks s = .ok u t) (j : ℕ) :
    view (t.node j) = view (s.node j) := by
  have hrevive (s : Collection) (w : NodeId) (cs : List NodeId) :
      view ((s.revive w cs).node j) = view (s.node j) := by
    have hkept := view_foldl_update (f := fun n => { n with kept := some w }) cs s view
      (fun n => hv n n.state (some w)) j
    unfold revive
    dsimp only
    rw [node_enqueue, view_accept view fun n => hv n .included none]
    split
    · exact (view_update view hc _ w j).trans hkept
    · exact hkept
  induction ks generalizing s with
  | nil =>
    rw [reelect_nil] at h
    cases h
    rfl
  | cons k ks ih =>
    rw [reelect_cons] at h
    split at h
    · split at h
      · rw [ih h, hrevive]
      · cases h
    · exact ih h

/-- A change of the version of a winner shows in no such view of another node. -/
theorem view_changeVersion {j : ℕ} (hj : j ≠ i) (h : changeVersion rules i v s = .ok () t) :
    view (t.node j) = view (s.node j) := by
  have hsel : (s.select i v).node j = s.node j := node_update_of_ne hj.symm
  rw [changeVersion_eq] at h
  rw [view_reelect view hv hc h j]
  unfold rebase
  dsimp only
  split
  · rw [node_enqueue, ← hsel]
    exact (view_update view hc _ i j).trans (view_disableBelow view fun n st => hv n st n.kept)
  · rw [hsel]

end View

/-- Whether a node has come under a constraint, with the version that it kept or was given. -/
def Submits (ev : Evidence) (c : Constraint) (m n : Node) : Prop :=
  n.constraint = c ∧ ∃ choice, Chooses ev m.artifact c choice ∧ n.version = choice.or m.version

theorem submits_newcomer (hne : x ≠ current) (h : x < s.graph.size)
    (hx : Chooses ev (s.node x).artifact c choice) :
    Submits ev c (s.node x) ((s.constrainBoth current x c e choice).node x) := by
  rw [node_constrainBoth_newcomer hne h]
  refine ⟨rfl, choice, hx, ?_⟩
  cases choice <;> rfl

/-- A winner and a newcomer that are not both spared come under what both accept, unless one of them
fails. -/
theorem Narrows.submits (hn : Narrows rules ev current x s t) (h : Steady (s, []))
    (hne : x ≠ current) (hx : (s.node x).state = .pending) (hc : current ∈ s.contenders)
    (hi : (s.node current).state = .included)
    (hsoft : ((s.node current).constraint.isSoft && (s.node x).constraint.isSoft) = false)
    (htc : (t.node current).state ≠ .failed) (htx : (t.node x).state ≠ .failed) :
    ∃ c, (s.node current).constraint.intersect (s.node x).constraint = .ok c ∧
      Submits ev c (s.node current) (t.node current) ∧ Submits ev c (s.node x) (t.node x) := by
  have hxc := Steady.pending_contender h.sound hx
  have hlt := h.sound.lt_size_of_contender hc
  have hxlt := h.sound.lt_size_of_contender hxc
  cases hn with
  | spare hs => exact absurd (hs.symm.trans hsoft) nofun
  | clash _ ht => exact absurd (isFailed_of_fail h hxc (.inl hx) ht).2 htx
  | @refuse c e f _ _ ht =>
    have hsh := sameShape_concede s x c e none
    refine absurd (isFailed_of_fail (hsh.steady h) (hsh.contenders ▸ hxc) (.inl ?_) ht).2 htx
    exact (hsh.state x).trans hx
  | @retain c e choice hm hcx hcc =>
    refine ⟨c, hm, ?_, submits_newcomer hne hxlt hcx⟩
    rw [node_constrainBoth_current hne hlt]
    exact ⟨rfl, none, hcc, rfl⟩
  | @shift c e choice v _ hm hcx hcc ht =>
    have hsh : s.SameShape (s.constrainBoth current x c e choice) := sameShape_constrainBoth
    have hnode := node_constrainBoth_current hne hlt c e choice
    have hcore := core_changeVersion (hsh.steady h) (hsh.contenders ▸ hc) ht
      (by rw [hnode]; exact hi)
    rw [hnode] at hcore
    refine ⟨c, hm, ⟨(congrArg Node.constraint hcore :), some v, hcc,
      (congrArg Node.version hcore :)⟩, ?_⟩
    -- the newcomer is as it was before the winner was moved
    obtain ⟨hcon, hver⟩ := Prod.mk.inj (view_changeVersion (fun n => (n.constraint, n.version))
      (fun _ _ _ => rfl) (fun _ => rfl) hne ht)
    have hsub : Submits ev c (s.node x) ((s.constrainBoth current x c e choice).node x) :=
      submits_newcomer hne hxlt hcx
    obtain ⟨hcon', choice, hchoice, hver'⟩ := hsub
    exact ⟨hcon.trans hcon', choice, hchoice, hver.trans hver'⟩
  | @abandon c e choice f _ _ _ ht =>
    have hsh : s.SameShape (s.constrainBoth current x c e choice) := sameShape_constrainBoth
    refine absurd (isFailed_of_fail (hsh.steady h) (hsh.contenders ▸ hc) (.inr ?_) ht).2 htc
    exact (hsh.state current).trans hi

end Collection

namespace Run

open Collection

variable {σ : Type} {session : Session σ} {st : σ} {r r' : Run σ} {current x : ℕ} {u : Unit}
  {v : Version} {c : Constraint}

theorem chooses_of_reselect {res : Except NodeError (Option Version)} {i : ℕ} {a : Artifact}
    (ha : (r.collection.node i).artifact = a) (hl : session.source.Later st r.source)
    (h : reselect session i c r = .ok res r') :
    r'.collection = r.collection ∧ session.source.Later st r'.source ∧
      ∀ choice, res = .ok choice → Chooses (told session st) a c choice := by
  obtain ⟨hc, hl', hnone, hsome⟩ := of_reselect_eq_ok hl h
  subst ha
  refine ⟨hc, hl', fun choice hres => ?_⟩
  cases choice with
  | none => exact .keep (hnone hres)
  | some v => exact .move (hsome v hres).1 (hsome v hres).2

/-- The narrowing of a winner and a newcomer that does not abort the run. -/
theorem narrows_of_restrict (hne : x ≠ current) (hl : session.source.Later st r.source)
    (h : restrict session current x r = .ok u r') :
    Narrows session.rules (told session st) current x r.collection r'.collection := by
  rw [restrict_eq] at h
  obtain ⟨_, _, hs, h⟩ := bind_eq_ok.mp h
  obtain ⟨rfl, rfl⟩ := collected_eq_ok.mp hs
  split at h
  · rename_i hsoft
    obtain ⟨-, rfl⟩ := pure_eq_ok.mp h
    exact .spare hsoft
  generalize hm : (r.collection.node current).constraint.intersect
    (r.collection.node x).constraint = met at h
  cases met with
  | error f => exact .clash hm (of_lift h).1
  | ok c =>
    dsimp only at h
    generalize Event.narrowed (r.collection.node current).artifact
      (r.collection.node x).artifact c = e at h
    unfold narrow at h
    obtain ⟨_, r₁, h₁, h⟩ := bind_eq_ok.mp h
    obtain ⟨hc₁, hl₁⟩ := of_alter h₁
    obtain ⟨_, r₂, h₂, h⟩ := bind_eq_ok.mp h
    obtain ⟨hc₂, hl₂⟩ := of_alter h₂
    rw [hc₁] at hc₂
    obtain ⟨res, r₃, h₃, h⟩ := bind_eq_ok.mp h
    have hax : (r₂.collection.node x).artifact = (r.collection.node x).artifact := by
      rw [hc₂]
      exact (view_update Node.artifact (by intro _; rfl) _ _ _).trans rfl
    obtain ⟨hc₃, hl₃, hx⟩ := chooses_of_reselect hax (hl₂ ▸ hl₁ ▸ hl) h₃
    rw [hc₂] at hc₃
    cases res with
    | error f =>
      obtain ⟨hf, -⟩ := of_lift h
      rw [hc₃] at hf
      exact .refuse hm hf
    | ok choice =>
      have hx := hx choice rfl
      obtain ⟨_, r₄, h₄, h⟩ := bind_eq_ok.mp h
      obtain ⟨hc₄, hl₄⟩ := of_alter h₄
      rw [hc₃] at hc₄
      have hc₄ : r₄.collection = r.collection.concede x c e choice := hc₄
      unfold follow at h
      obtain ⟨_, r₅, h₅, h⟩ := bind_eq_ok.mp h
      obtain ⟨hc₅, hl₅⟩ := of_alter h₅
      rw [hc₄] at hc₅
      obtain ⟨res, r₆, h₆, h⟩ := bind_eq_ok.mp h
      have hac : (r₅.collection.node current).artifact =
          (r.collection.node current).artifact := by
        rw [hc₅]
        refine (view_update Node.artifact (by intro _; rfl) _ _ _).trans ?_
        rw [node_concede_of_ne hne.symm]
      obtain ⟨hc₆, -, hc⟩ := chooses_of_reselect hac (hl₅ ▸ hl₄ ▸ hl₃) h₆
      rw [hc₅] at hc₆
      cases res with
      | error f =>
        obtain ⟨hf, -⟩ := of_lift h
        rw [hc₆] at hf
        exact .abandon hm hx hf
      | ok second =>
        have hc := hc second rfl
        cases second with
        | none =>
          obtain ⟨-, rfl⟩ := pure_eq_ok.mp h
          rw [hc₆]
          exact .retain hm hx hc
        | some v =>
          obtain ⟨hf, -⟩ := of_lift h
          rw [hc₆] at hf
          exact .shift hm hx hc hf

def introduce (id : NodeId) (v : Version) : RunM σ Unit := do
  alter (·.select id v)
  let n := (← collected).node id
  if n.constraint.isRange then alter (·.emit (.chosenFromRange n.artifact))

/-- To register a pending node is to introduce it and to let it meet the winner. -/
theorem register_eq_confront (hp : (r.collection.node x).state = .pending)
    (h : introduce x v r = .ok u r') :
    register session x (.ok v) r = confront session x (r.collection.node x).key r' := by
  have hkey : ((r.collection.select x v).node x).key = (r.collection.node x).key :=
    view_select Node.key v fun _ => rfl
  unfold introduce at h
  rw [bind_of_ok (alter_eq _ r), bind_of_ok (collected_eq _)] at h
  rw [register_eq, bind_of_ok (collected_eq r), if_neg (not_not_intro hp)]
  dsimp only
  rw [bind_of_ok (alter_eq _ r), bind_of_ok (collected_eq _), hkey]
  split at h
  · rename_i hrange
    rw [if_pos hrange]
    exact bind_of_ok h _
  · rename_i hrange
    rw [if_neg hrange]
    obtain ⟨-, rfl⟩ := pure_eq_ok.mp h
    rfl

theorem of_introduce_eq_ok (h : introduce x v r = .ok u r') :
    (r.collection.select x v).Agrees r'.collection ∧ r'.source = r.source ∧
      (r'.collection = r.collection.select x v ∨
        ∃ e, r'.collection = (r.collection.select x v).emit e) := by
  unfold introduce at h
  obtain ⟨_, r₁, h₁, h⟩ := bind_eq_ok.mp h
  obtain ⟨hc₁, hl₁⟩ := of_alter h₁
  obtain ⟨_, _, hc, h⟩ := bind_eq_ok.mp h
  obtain ⟨rfl, rfl⟩ := collected_eq_ok.mp hc
  split at h
  · obtain ⟨hc₂, hl₂⟩ := of_alter h
    rw [hc₁] at hc₂
    exact ⟨hc₂ ▸ .emit _ _, hl₂.trans hl₁, .inr ⟨_, hc₂⟩⟩
  · obtain ⟨-, rfl⟩ := pure_eq_ok.mp h
    exact ⟨hc₁ ▸ .refl _, hl₁, .inl hc₁⟩

def advance (session : Session σ) : ℕ → List NodeId → RunM σ (List NodeId)
  | 0, level => return level
  | n + 1, level => do
    if (← get).isSettled level then return level
    else advance session n (← round session level)

/-- Registers nodes until one of them, if it is pending, is introduced, and gives the winner that
it meets. -/
def approach (session : Session σ) (x : NodeId) :
    List (NodeId × Except NodeError Version) → RunM σ (Option NodeId)
  | [] => return none
  | (id, selection) :: rest => do
    if id = x then
      match selection with
      | .error _ => return none
      | .ok v =>
        if ((← collected).node x).state ≠ .pending then return none
        introduce x v
        let s ← collected
        return s.winner? (s.node x).key
    else
      register session id selection
      approach session x rest

/-- Goes on to where a newcomer of the level after so many rounds meets a winner. -/
def encounter (session : Session σ) (n : ℕ) (x : NodeId) (level : List NodeId) :
    RunM σ (Option NodeId) := do
  let level ← advance session n level
  if (← get).isSettled level then return none
  approach session x (← selectAll session level)

def passes {α : Type} (step : RunM σ α) (r : Run σ) (check : α → Run σ → Bool) : Bool :=
  match step r with
  | .ok a r' => check a r'
  | .error _ _ => false

theorem passes_iff {α : Type} {step : RunM σ α} {check : α → Run σ → Bool} :
    passes step r check = true ↔ ∃ a r', step r = .ok a r' ∧ check a r' = true := by
  unfold passes
  split
  · rename_i a r' h
    exact ⟨fun hc => ⟨a, r', h, hc⟩, fun ⟨_, _, h', hc⟩ => by rw [h] at h'; cases h'; exact hc⟩
  · rename_i e r' h
    exact ⟨nofun, fun ⟨_, _, h', _⟩ => by rw [h] at h'; cases h'⟩

theorem reaches_advance {n : ℕ} {level ids ids' : List NodeId} {r₀ : Run σ}
    (hr : Reaches session level r₀ (.level ids) r) (h : advance session n ids r = .ok ids' r') :
    Reaches session level r₀ (.level ids') r' := by
  induction n generalizing ids r with
  | zero =>
    obtain ⟨rfl, rfl⟩ := pure_eq_ok.mp h
    exact hr
  | succ n ih =>
    unfold advance at h
    obtain ⟨_, _, hg, h⟩ := bind_eq_ok.mp h
    cases hg
    split at h
    · obtain ⟨rfl, rfl⟩ := pure_eq_ok.mp h
      exact hr
    · rename_i hset
      obtain ⟨next, r₁, h₁, h⟩ := bind_eq_ok.mp h
      exact ih (reaches_round hr (Bool.eq_false_iff.mpr hset) h₁) h

end Run

namespace Resolver

open Collection Run

variable {σ : Type} {resolver : Resolver σ} {q : Request} {st : σ} {r : Run σ} {current x : ℕ}

/-- Whether a resolution comes to a run in which a newcomer, which was pending and is introduced
with the version selected for it, is next narrowed with the winner of its identity. -/
inductive Meets (resolver : Resolver σ) (q : Request) (st : σ) (current x : NodeId) (r : Run σ) :
    Prop
  | of_reaches {r₀ : Run σ} {v : Version} {rest : List (NodeId × Except NodeError Version)}
      {ids : List NodeId}
      (hr : resolver.Reaches q st (.registering ((x, .ok v) :: rest) ids) r₀)
      (hp : (r₀.collection.node x).state = .pending) (hi : introduce x v r₀ = .ok () r)
      (hw : r.collection.winner? (r.collection.node x).key = some current)

namespace Meets

variable (h : resolver.Meets q st current x r)
include h

/-- The introduction is a chain of moves from what was reached before, where the newcomer had no
version. -/
theorem moves : ∃ (stage : Stage) (r₀ : Run σ), resolver.Reaches q st stage r₀ ∧
    Moves (resolver.session q).rules (told (resolver.session q) st) x (r₀.collection, [])
      (r.collection, []) := by
  obtain ⟨hr, hp, hi, -⟩ := h
  rename_i r₀ v rest ids
  obtain ⟨hpoised, hsel⟩ := holds_of_reaches hr
  have ho := (hsel x (.ok v) (List.mem_cons_self ..)).2.offers v rfl
  rw [← hpoised.blank x hp] at ho
  refine ⟨_, r₀, hr, .head (.choose hp ho) ?_⟩
  obtain ⟨-, -, hc | ⟨e, hc⟩⟩ := of_introduce_eq_ok hi
  · rw [hc]
  · rw [hc]
    exact .single (.tell e)

theorem steady : Steady (r.collection, []) := by
  obtain ⟨_, _, hr, hm⟩ := h.moves
  exact hm.steady (steady_of_reaches hr)

theorem of_lasts {I : Collection → Prop} (hI : resolver.Lasts q st I) : I r.collection := by
  obtain ⟨_, _, hr, hm⟩ := h.moves
  exact hI.moves hm (steady_of_reaches hr) (hI.reaches hr)

theorem later : (resolver.session q).source.Later st r.source := by
  obtain ⟨hr, -, hi, -⟩ := h
  obtain ⟨-, hl, -⟩ := of_introduce_eq_ok hi
  exact hl ▸ (holds_of_reaches hr).1.later

theorem newcomer : (r.collection.node x).state = .pending ∧
    (r.collection.node x).constraint = (r.collection.node x).declaredConstraint := by
  obtain ⟨hr, hp, hi, -⟩ := h
  rename_i r₀ v rest ids
  obtain ⟨ha, -, -⟩ := of_introduce_eq_ok hi
  have hcon : (r.collection.node x).constraint = ((r₀.collection.select x v).node x).constraint :=
    (congrArg Node.constraint (ha.core x) :)
  have hdec : (r.collection.node x).declaredConstraint =
      ((r₀.collection.select x v).node x).declaredConstraint :=
    (congrArg Node.declaredConstraint (ha.core x) :)
  rw [ha.state, hcon, hdec, view_select Node.state v fun _ => rfl,
    view_select Node.constraint v fun _ => rfl, view_select Node.declaredConstraint v fun _ => rfl]
  exact ⟨hp, (holds_of_reaches hr).1.blank x hp⟩

theorem versioned : (r.collection.node x).version.isSome = true := by
  obtain ⟨hr, hp, hi, -⟩ := h
  rename_i r₀ v rest ids
  obtain ⟨ha, -, -⟩ := of_introduce_eq_ok hi
  have hs := (steady_of_reaches hr).sound
  have hlt := hs.lt_size_of_contender (Steady.pending_contender hs hp)
  have hver : (r.collection.node x).version = ((r₀.collection.select x v).node x).version :=
    (congrArg Node.version (ha.core x) :)
  rw [hver, Collection.select, node_update_self hlt]
  rfl

theorem rival : r.collection.IsRival x current := by
  obtain ⟨-, -, -, hw⟩ := h
  obtain ⟨hc, hk, hi⟩ := of_winner?_eq_some hw
  exact ⟨hc, isIncluded_iff.mpr hi, hk⟩

theorem ne : x ≠ current := by
  rintro rfl
  have hi := isIncluded_iff.mp h.rival.included
  rw [h.newcomer.1] at hi
  cases hi

theorem narrows {r' : Run σ} {u : Unit}
    (hr : restrict (resolver.session q) current x r = .ok u r') :
    Narrows (resolver.session q).rules (told (resolver.session q) st) current x r.collection
      r'.collection :=
  narrows_of_restrict h.ne h.later hr

end Meets

theorem meets_of_approach {rest : List (NodeId × Except NodeError Version)} {ids : List NodeId}
    {r₀ : Run σ} (hr : resolver.Reaches q st (.registering rest ids) r₀)
    (h : approach (resolver.session q) x rest r₀ = .ok (some current) r) :
    resolver.Meets q st current x r := by
  induction rest generalizing r₀ with
  | nil => cases (pure_eq_ok.mp h).1
  | cons p rest ih =>
    obtain ⟨id, selection⟩ := p
    unfold approach at h
    split at h
    · rename_i hid
      subst hid
      split at h
      · cases (pure_eq_ok.mp h).1
      · obtain ⟨_, _, hc, h⟩ := bind_eq_ok.mp h
        obtain ⟨rfl, rfl⟩ := collected_eq_ok.mp hc
        split at h
        · cases (pure_eq_ok.mp h).1
        · rename_i hp
          obtain ⟨_, r₁, hi, h⟩ := bind_eq_ok.mp h
          obtain ⟨_, _, hc, h⟩ := bind_eq_ok.mp h
          obtain ⟨rfl, rfl⟩ := collected_eq_ok.mp hc
          obtain ⟨hw, rfl⟩ := pure_eq_ok.mp h
          exact .of_reaches hr (not_not.mp hp) hi hw
    · obtain ⟨_, r₁, hs, h⟩ := bind_eq_ok.mp h
      exact ih (hr.register hs) h

theorem meets_of_encounter {n : ℕ} (h : encounter (resolver.session q) n x (resolver.start q st).1
    (resolver.start q st).2 = .ok (some current) r) : resolver.Meets q st current x r := by
  unfold encounter at h
  obtain ⟨level, r₁, ha, h⟩ := bind_eq_ok.mp h
  obtain ⟨_, _, hg, h⟩ := bind_eq_ok.mp h
  cases hg
  split at h
  · cases (pure_eq_ok.mp h).1
  · rename_i hset
    obtain ⟨rest, r₂, hs, h⟩ := bind_eq_ok.mp h
    have hr := reaches_advance .start ha
    exact meets_of_approach (hr.select (Bool.eq_false_iff.mpr hset) hs) h

end Resolver

end Mediation
