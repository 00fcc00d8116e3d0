import Mediation.Proofs.Collection.Change

/-! # Decisions and the elections behind them

A decision first changes the collection and may take winners away; then the
identities that lost theirs elect new ones. Each step that decides is written here
as the change it makes, the identities concerned, and a `reelect` of these.
-/

namespace Mediation.Collection

variable {rules : Rules} {s t : Collection}

/-- The winner so far gives way to a newcomer. -/
def displace (s : Collection) (k : Key) (current newcomer : NodeId) : Collection × List Key :=
  let s := s.update current fun n =>
    { n with state := .omittedForConflict, kept := some newcomer }
  let s := s.emit (.omittedForConflict (s.node current).artifact (s.node newcomer).artifact)
  let s := ((s.accept newcomer).redirect k current newcomer).widenScope newcomer current
  if (s.node current).expanded then (s.disableBelow current, s.keysBelow current) else (s, [])

/-- A newcomer gives way to a winner. -/
def yieldTo (s : Collection) (winner newcomer : NodeId) : Collection :=
  let s := s.update newcomer fun n =>
    { n with state := .omittedForConflict, kept := some winner }
  let s := s.emit (.omittedForConflict (s.node newcomer).artifact (s.node winner).artifact)
  s.widenScope winner newcomer

def collapse (s : Collection) (id : NodeId) (e : NodeError) : Collection × List Key :=
  let t := (s.update id fun n => { n with state := .failed }).report id e
  if s.graph.isIncluded id then
    if (s.node id).expanded then (t.disableBelow id, (s.node id).key :: t.keysBelow id)
    else (t, [(s.node id).key])
  else (t, [])

def rebase (s : Collection) (id : NodeId) (v : Version) : Collection × List Key :=
  let s := s.select id v
  if (s.node id).expanded then (((s.disableBelow id).prune id).enqueue id, s.keysBelow id)
  else (s, [])

def isFatal (rules : Rules) (s : Collection) (id : NodeId) : Bool :=
  !(s.node id).artifact.optional && ((s.node id).depth = 1 || rules.strict)

def isVacant (s : Collection) (k : Key) : Bool :=
  (s.winner? k).isNone && !(s.eligible k).isEmpty

section Sequence

variable {α β : Type}

theorem get_bind (f : Collection → Step α) : (get >>= f) s = f s s := rfl

theorem set_bind (f : PUnit → Step α) : (set t >>= f) s = f ⟨⟩ t := rfl

theorem modify_bind (g : Collection → Collection) (f : PUnit → Step α) :
    (modify g >>= f) s = f ⟨⟩ (g s) := rfl

theorem ofExcept_bind (x : Except ResolveError β) (f : β → Step α) :
    (Step.ofExcept x >>= f) s =
      match x with
      | .ok b => f b s
      | .error e => .error e s := by
  cases x <;> rfl

end Sequence

theorem reelect_nil : reelect rules [] s = .ok () s := rfl

theorem reelect_cons (k : Key) (ks : List Key) :
    reelect rules (k :: ks) s =
      if s.isVacant k then
        match s.elect rules k (s.eligible k) with
        | .ok w => reelect rules ks (s.revive w (s.eligible k))
        | .error e => .error e s
      else reelect rules ks s := by
  rw [reelect, get_bind]
  dsimp only
  rw [isVacant]
  split
  · rw [ofExcept_bind]
    cases s.elect rules k (s.eligible k) <;> rfl
  · rfl

theorem resolveConflict_eq (k : Key) (current newcomer : NodeId) :
    resolveConflict rules k current newcomer s =
      match s.elect rules k [min current newcomer, max current newcomer] with
      | .error e => .error e s
      | .ok w =>
        if w = newcomer then
          reelect rules (s.displace k current newcomer).2 (s.displace k current newcomer).1
        else .ok () (s.yieldTo w newcomer) := by
  unfold resolveConflict displace yieldTo
  rw [get_bind, ofExcept_bind]
  cases s.elect rules k [min current newcomer, max current newcomer] with
  | error e => rfl
  | ok w =>
    dsimp only
    by_cases hw : w = newcomer
    · subst hw
      simp only [if_true]
      cases hx : Node.expanded _ <;> rfl
    · simp only [hw, if_false]
      rfl

theorem fail_eq (id : NodeId) (e : NodeError) :
    fail rules id e s =
      if s.isFatal rules id then
        .error (.requiredArtifact (s.node id).artifact e)
          (s.update id fun n => { n with state := .failed })
      else reelect rules (s.collapse id e).2 (s.collapse id e).1 := by
  have hv {α : Type} (v : Node → α) (hv : ∀ n : Node, v { n with state := .failed } = v n) :
      v ((s.update id fun n => { n with state := .failed }).node id) = v (s.node id) :=
    view_update v hv s id id
  have ha := hv Node.artifact fun _ => rfl
  have hd := hv Node.depth fun _ => rfl
  have he := hv Node.expanded fun _ => rfl
  unfold fail
  rw [get_bind, modify_bind, get_bind]
  simp only [ha, hd, he, isFatal, collapse, Node.key]
  by_cases hf : (!(s.node id).artifact.optional && ((s.node id).depth = 1 || rules.strict)) = true
  · simp only [hf, ↓reduceIte]
    rfl
  · simp only [hf, ↓reduceIte, Bool.false_eq_true]
    rw [set_bind]
    cases s.graph.isIncluded id with
    | false => rfl
    | true => cases (s.node id).expanded <;> rfl

theorem of_fail_eq_ok {id : NodeId} {e : NodeError} (h : fail rules id e s = .ok () t) :
    s.isFatal rules id = false ∧
      reelect rules (s.collapse id e).2 (s.collapse id e).1 = .ok () t := by
  rw [fail_eq] at h
  split at h
  · cases h
  · rename_i hf
    exact ⟨Bool.eq_false_iff.mpr hf, h⟩

theorem of_fail_of_pending {id : NodeId} {e : NodeError} (hp : (s.node id).state = .pending)
    (h : fail rules id e s = .ok () t) :
    t = (s.update id fun n => { n with state := .failed }).report id e := by
  have hi : s.graph.isIncluded id = false := by
    rw [Bool.eq_false_iff, Ne, isIncluded_iff, hp]
    decide
  obtain ⟨-, h⟩ := of_fail_eq_ok h
  simp only [collapse, hi, Bool.false_eq_true, if_false] at h
  cases h
  rfl

theorem changeVersion_eq (id : NodeId) (v : Version) :
    changeVersion rules id v s = reelect rules (s.rebase id v).2 (s.rebase id v).1 := by
  unfold changeVersion rebase
  rw [get_bind]
  dsimp only
  cases ((s.select id v).node id).expanded <;> rfl

theorem settle_eq (id : NodeId) :
    settle rules id s =
      match s.winner? (s.node id).key with
      | some current => resolveConflict rules (s.node id).key current id s
      | none =>
        match s.elect rules (s.node id).key [id] with
        | .ok _ => .ok () (s.accept id)
        | .error e => .error e s := by
  unfold settle
  rw [get_bind]
  cases s.winner? (s.node id).key with
  | some _ => rfl
  | none =>
    dsimp only
    rw [ofExcept_bind]
    cases s.elect rules (s.node id).key [id] <;> rfl

theorem mem_of_elect {k : Key} {candidates : List NodeId} {w : NodeId}
    (h : s.elect rules k candidates = .ok w) : w ∈ candidates := by
  unfold elect at h
  dsimp only at h
  split at h
  · split at h
    · rename_i hc
      cases h
      simpa using hc
    · cases h
  · cases h

theorem eq_of_elect {k : Key} {i x w : ℕ} (h : s.elect rules k [min i x, max i x] = .ok w)
    (hne : w ≠ x) : w = i := by
  have hmem : w = min i x ∨ w = max i x := by simpa using mem_of_elect h
  omega

end Mediation.Collection
