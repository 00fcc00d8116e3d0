import Mediation.Proofs.Run.Registration

/-! # Runs in time

A run that asks for nothing but what is answered stops early for one reason only: there is a
deadline, and answers take time.
-/

namespace Mediation

namespace Inquiry

variable {σ α : Type} {limit : Option ℕ} {window : ℕ}

theorem delay_bounded_le (c : Coordinate) (q : Inquiry σ (SourceAnswer α)) :
    (bounded limit c q).delay ≤ q.delay := by
  unfold bounded
  split
  · exact le_rfl
  · split
    · rename_i h
      exact h.le
    · exact le_rfl

theorem eq_zero_of_mem_answerTimes {taken delays : List ℕ} (ht : ∀ t ∈ taken, t = 0)
    (hd : ∀ d ∈ delays, d = 0) : ∀ t ∈ answerTimes window 0 taken delays, t = 0 := by
  have hget {o : Option ℕ} (ho : ∀ t, o = some t → t = 0) : o.getD 0 = 0 := by
    cases o with
    | none => rfl
    | some t => exact ho t rfl
  induction delays generalizing taken with
  | nil => exact nofun
  | cons d ds ih =>
    have hlast : (taken[window - 1]?).getD 0 = 0 :=
      hget fun t h => ht t (List.mem_of_getElem? h)
    have hfirst : taken.head?.getD 0 = 0 := hget fun t h => ht t (List.mem_of_head? h)
    have hnow : (taken[window - 1]?).getD 0 + d = 0 := by
      rw [hlast, hd d (List.mem_cons_self ..)]
    simp only [answerTimes, hnow, hfirst, max_self]
    intro t h
    rcases List.mem_cons.mp h with rfl | h
    · rfl
    · apply ih _ (fun d h => hd d (List.mem_cons_of_mem _ h)) t h
      intro t h
      rcases List.mem_cons.mp h with rfl | h
      · rfl
      · exact ht t h

end Inquiry

namespace Source

variable {σ : Type} {src : Source σ} {limit : Option ℕ}

theorem delay_selection_le (a : Artifact) (c : Constraint) :
    (src.selection limit a c).delay ≤ src.latency := by
  unfold selection
  split
  · split
    · exact (Inquiry.delay_bounded_le _ _).trans (Nat.zero_le _)
    · exact Nat.zero_le _
  · exact Inquiry.delay_bounded_le _ _

theorem delay_description_le (a : Artifact) : (src.description limit a).delay ≤ src.latency :=
  Inquiry.delay_bounded_le _ _

end Source

namespace Run

variable {σ α β : Type} {session : Session σ} {r r' : Run σ} {P : α → Run σ → Prop}
  {Q : β → Run σ → Prop}

theorem bind_of_ok {x : RunM σ α} {a : α} (h : x r = .ok a r') (f : α → RunM σ β) :
    (x >>= f) r = f a r' := by
  change EStateM.bind x f r = _
  rw [EStateM.bind, h]

theorem bind_of_error {x : RunM σ α} {e : ResolveError} (h : x r = .error e r')
    (f : α → RunM σ β) : (x >>= f) r = .error e r' := by
  change EStateM.bind x f r = _
  rw [EStateM.bind, h]

theorem get_eq (r : Run σ) : (get : RunM σ (Run σ)) r = .ok r r := rfl

theorem collected_eq (r : Run σ) : collected r = .ok r.collection r := rfl

theorem alter_eq (f : Collection → Collection) (r : Run σ) :
    alter f r = .ok () { r with collection := f r.collection } := rfl

theorem count_eq (n : ℕ) (r : Run σ) : count n r = .ok () { r with fetches := r.fetches + n } :=
  rfl

/-- Whether a run may be stopped: there is a deadline, and answers take time. -/
def MayBeLate (session : Session σ) : Prop :=
  session.limits.deadline ≠ none ∧ session.source.latency ≠ 0

/-- Whether no time has passed if there is a deadline and answers take no time. -/
def OnTime (session : Session σ) (r : Run σ) : Prop :=
  session.limits.deadline ≠ none → session.source.latency = 0 → r.clock = 0

/-- Whether a step has a result with some property, unless it is too late. -/
def Goes (session : Session σ) (x : RunM σ α) (r : Run σ) (P : α → Run σ → Prop) : Prop :=
  (∃ a r', x r = .ok a r' ∧ P a r') ∨ MayBeLate session ∧ ∃ r', x r = .error .timeout r'

namespace Goes

theorem of_ok {x : RunM σ α} {a : α} (h : x r = .ok a r') (hp : P a r') : Goes session x r P :=
  .inl ⟨a, r', h, hp⟩

theorem step {x : RunM σ α} {f : α → RunM σ β} {a : α} (h : x r = .ok a r')
    (hf : Goes session (f a) r' Q) : Goes session (x >>= f) r Q := by
  rw [Goes, ← bind_of_ok h f] at hf
  exact hf

theorem bind {x : RunM σ α} {f : α → RunM σ β} (h : Goes session x r P)
    (hf : ∀ a r', x r = .ok a r' → P a r' → Goes session (f a) r' Q) :
    Goes session (x >>= f) r Q := by
  rcases h with ⟨a, r', hx, hp⟩ | ⟨hl, r', hx⟩
  · exact step hx (hf a r' hx hp)
  · exact .inr ⟨hl, r', bind_of_error hx f⟩

theorem imp {x : RunM σ α} {P' : α → Run σ → Prop} (h : Goes session x r P)
    (hp : ∀ a r', x r = .ok a r' → P a r' → P' a r') : Goes session x r P' :=
  h.imp_left fun ⟨a, r', hx, ha⟩ => ⟨a, r', hx, hp a r' hx ha⟩

end Goes

theorem inTime_zero (limits : Limits) : inTime limits 0 = true := by
  unfold inTime
  cases limits.deadline <;> simp

theorem goes_askAll {qs : List (Inquiry σ α)} (ht : OnTime session r)
    (hq : ∀ q ∈ qs, q.delay ≤ session.source.latency) :
    Goes session (askAll session.limits qs) r fun _ r' => OnTime session r' := by
  set times := Inquiry.answerTimes session.limits.window r.clock [] (qs.map (·.delay)) with htimes
  have hzero (hd : session.limits.deadline ≠ none) (hl : session.source.latency = 0) :
      ∀ t ∈ times, t = 0 := by
    rw [htimes, ht hd hl]
    refine Inquiry.eq_zero_of_mem_answerTimes (fun t hm => absurd hm List.not_mem_nil) ?_
    intro d hm
    obtain ⟨q, hqs, rfl⟩ := List.mem_map.mp hm
    have hle := hq q hqs
    rw [hl] at hle
    exact Nat.le_zero.mp hle
  set r₁ : Run σ := { r with
    source := (Inquiry.askInTime (inTime session.limits) (qs.zip times) r.source).2
    clock := times.foldl max r.clock } with hr₁
  have hask : askAll session.limits qs r = if times.all (inTime session.limits) then
      .ok (Inquiry.askInTime (inTime session.limits) (qs.zip times) r.source).1 r₁
      else .error .timeout r₁ := by
    have hrun : askAll session.limits qs r = (if times.all (inTime session.limits) then
        pure (Inquiry.askInTime (inTime session.limits) (qs.zip times) r.source).1
        else throw .timeout : RunM σ (List α)) r₁ := rfl
    rw [hrun]
    split <;> rfl
  by_cases hall : times.all (inTime session.limits) = true
  · rw [if_pos hall] at hask
    refine .of_ok hask fun hd hl => ?_
    have hfold {ts : List ℕ} (h : ∀ t ∈ ts, t = 0) : ts.foldl max 0 = 0 := by
      induction ts with
      | nil => rfl
      | cons t ts ih =>
        rw [List.foldl_cons, h t (List.mem_cons_self ..)]
        exact ih fun t hm => h t (List.mem_cons_of_mem _ hm)
    change times.foldl max r.clock = 0
    rw [ht hd hl]
    exact hfold (hzero hd hl)
  · rw [if_neg hall] at hask
    refine .inr ⟨⟨fun hd => hall ?_, fun hl => hall ?_⟩, r₁, hask⟩
    · rw [List.all_eq_true]
      intro t _
      simp [inTime, hd]
    · rw [List.all_eq_true]
      intro t hm
      by_cases hd : session.limits.deadline = none
      · simp [inTime, hd]
      · rw [hzero hd hl t hm, inTime_zero]

theorem goes_selectAll {ids : List NodeId} (ht : OnTime session r) :
    Goes session (selectAll session ids) r fun _ r' => OnTime session r' := by
  refine .step (collected_eq r) (.bind (goes_askAll ht fun q hm => ?_) ?_)
  swap
  · exact fun answers r₁ _ ht => .of_ok rfl ht
  obtain ⟨j, -, rfl⟩ := List.mem_map.mp hm
  exact Source.delay_selection_le _ _

theorem goes_fetchAll {ids : List NodeId} (ht : OnTime session r) :
    Goes session (fetchAll session ids) r fun _ r' => OnTime session r' := by
  refine .step (collected_eq r) (.step (alter_eq _ r) (.step (count_eq _ _) ?_))
  refine .bind (goes_askAll (show OnTime session _ from ht) fun q hm => ?_) ?_
  swap
  · exact fun answers r₁ _ ht => .of_ok rfl ht
  obtain ⟨j, -, rfl⟩ := List.mem_map.mp hm
  exact Source.delay_description_le _

variable {x : ℕ} {v : Version}

/-- A node meets a winner without more ado, if nothing but recommendations are at stake. -/
theorem confront_of_soft {k : Key} (hp : (r.collection.node x).state = .pending)
    (hx : (r.collection.node x).constraint.isSoft = true)
    (hw : ∀ i, r.collection.winner? k = some i → (r.collection.node i).constraint.isSoft = true) :
    confront session x k r = lift (Collection.settle session.rules x) r := by
  unfold confront
  rw [bind_of_ok (collected_eq r)]
  cases hwin : r.collection.winner? k with
  | none =>
    dsimp only
    rw [bind_of_ok (collected_eq r), if_pos hp]
  | some i =>
    have hrestrict : restrict session i x r = .ok () r := by
      rw [restrict_eq, bind_of_ok (collected_eq r)]
      simp only [hx, hw i hwin, Bool.and_self, if_true]
      rfl
    dsimp only
    rw [bind_of_ok hrestrict, bind_of_ok (collected_eq r), if_pos hp]

theorem register_of_soft (hx : x < r.collection.graph.size)
    (hp : (r.collection.node x).state = .pending)
    (hs : (r.collection.node x).constraint.isSoft = true)
    (hw : ∀ i, (r.collection.select x v).winner? (r.collection.node x).key = some i →
      ((r.collection.select x v).node i).constraint.isSoft = true) :
    register session x (.ok v) r =
      lift (Collection.settle session.rules x)
        { r with collection := r.collection.select x v } := by
  have hself : (r.collection.select x v).node x =
      { r.collection.node x with artifact := (r.collection.node x).artifact.select v } :=
    Collection.node_update_self hx
  have hrange : ((r.collection.select x v).node x).constraint.isRange = false := by
    rw [hself]
    revert hs
    unfold Constraint.isSoft Constraint.isRange
    cases (r.collection.node x).constraint.recommended <;> simp
  have hkey : ((r.collection.select x v).node x).key = (r.collection.node x).key := by
    rw [hself]
    rfl
  rw [register_eq, bind_of_ok (collected_eq r), if_neg (not_not.mpr hp)]
  dsimp only
  rw [bind_of_ok (alter_eq _ r), bind_of_ok (collected_eq _)]
  dsimp only
  rw [hrange, if_neg Bool.false_ne_true, hkey]
  apply confront_of_soft
  · rw [hself]
    exact hp
  · rw [hself]
    exact hs
  · exact hw

end Run

end Mediation
