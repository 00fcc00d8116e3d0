import Mediation.Proofs.Repository.Asking
import Mediation.Proofs.Repository.Reading

/-! # Keys do not interfere

What a registry over repositories in memory holds for one key is a registry of its own: operations
on other keys neither change it nor depend on it. So they can be left out of a session, and every
other operation answers as it did before.
-/

namespace Mediation

namespace Operation

/-- The key that an operation is about, unless it is about all of them. -/
def key? : Operation → Option MetadataKey
  | .put _ e => some e.key
  | .setOnline _ => none
  | .clear => none
  | .fail _ key _ | .get _ key | .record _ key _ | .lookup _ key | .merged key | .putMerged key _
  | .invalidate key | .resolve key _ _ | .resolveFresh key _ _ => some key

def concerns (key : MetadataKey) (op : Operation) : Bool := op.key?.all (· == key)

theorem concerns_of_key? {key k : MetadataKey} {op : Operation} (h : op.key? = some k) :
    op.concerns key = decide (k = key) := by
  simp [concerns, h, beq_eq_decide]

end Operation

namespace Registry

variable {g h i : InMemory} {key k : MetadataKey} {op : Operation}

structure HoldsSame (key : MetadataKey) (g h : InMemory) : Prop where
  online : h.isOnline = g.isOnline
  envelope : ∀ id, h.store.get? id key = g.store.get? id key
  failure : ∀ id, h.store.failures.get? (id, key) = g.store.failures.get? (id, key)
  answer : ∀ id, h.cache.lookup? id key = g.cache.lookup? id key
  merged : h.cache.merged.get? key = g.cache.merged.get? key

namespace HoldsSame

theorem refl (key : MetadataKey) (g : InMemory) : HoldsSame key g g :=
  ⟨rfl, fun _ => rfl, fun _ => rfl, fun _ => rfl, rfl⟩

theorem trans (hg : HoldsSame key g h) (hh : HoldsSame key h i) : HoldsSame key g i where
  online := hh.online.trans hg.online
  envelope id := (hh.envelope id).trans (hg.envelope id)
  failure id := (hh.failure id).trans (hg.failure id)
  answer id := (hh.answer id).trans (hg.answer id)
  merged := hh.merged.trans hg.merged

theorem symm (hg : HoldsSame key g h) : HoldsSame key h g where
  online := hg.online.symm
  envelope id := (hg.envelope id).symm
  failure id := (hg.failure id).symm
  answer id := (hg.answer id).symm
  merged := hg.merged.symm

end HoldsSame

theorem holdsSame_fetch (key k : MetadataKey) (r : Repository) (g : InMemory) (c : Cache)
    (hc : ∀ id, c.lookup? id key = g.cache.lookup? id key)
    (hm : c.merged.get? key = g.cache.merged.get? key) :
    HoldsSame key g ⟨(Store.fetch k r g.store).2, c⟩ :=
  ⟨rfl, fun _ => rfl, fun _ => rfl, hc, hm⟩

theorem holdsSame_ask (hne : k ≠ key) (g : InMemory) (r : Repository) (now : Moment) :
    HoldsSame key g (g.ask k r now).2 := by
  have hasks := g.asks_ask k r now
  generalize g.ask k r now = asked at hasks
  cases hasks with
  | reuses => exact ⟨rfl, fun _ => rfl, fun _ => rfl, fun _ => rfl, rfl⟩
  | fails _ fetched =>
    obtain rfl := congrArg Prod.snd fetched
    exact holdsSame_fetch key k r g _ (fun _ => rfl) rfl
  | reads _ fetched =>
    obtain rfl := congrArg Prod.snd fetched
    exact holdsSame_fetch key k r g _ (fun _ => rfl) rfl
  | refreshes _ fetched =>
    obtain rfl := congrArg Prod.snd fetched
    exact holdsSame_fetch key k r g _ (by simp [Cache.lookup?_record, hne.symm]) rfl

theorem holdsSame_resolve (hne : k ≠ key) (g : InMemory) (rs : List Repository) (now : Moment) :
    HoldsSame key g (g.resolve k rs now).2 := by
  apply resolve_preserves
  · intro g' r _ hg
    exact hg.trans (holdsSame_ask hne g' r now)
  · intro g' e hg
    exact hg.trans ⟨rfl, fun _ => rfl, fun _ => rfl, fun _ => rfl,
      Table.get?_put_of_ne _ hne.symm _⟩
  · exact .refl key g

theorem holdsSame_resolveFresh (hne : k ≠ key) (g : InMemory) (r : Repository) (now : Moment) :
    HoldsSame key g (g.resolveFresh k r now).2 := by
  rcases fetched : Store.fetch k r g.store with ⟨_ | found, s⟩ <;>
    obtain rfl := congrArg Prod.snd fetched <;> rw [resolveFresh, fetched]
  · exact holdsSame_fetch key k r g _ (fun _ => rfl) rfl
  · exact holdsSame_fetch key k r g _ (by simp [Cache.lookup?_record, hne.symm]) rfl

theorem holdsSame_perform (g : InMemory) (hop : op.concerns key = false) :
    HoldsSame key g (g.perform op).2 := by
  have hne : ∀ k, op.key? = some k → k ≠ key := by
    rintro k hk rfl
    simp [Operation.concerns_of_key? hk] at hop
  cases op with
  | setOnline | clear => cases hop
  | get | lookup | merged => exact .refl key g
  | put id e =>
    have hk := hne e.key rfl
    exact ⟨rfl, fun id' => Table.get?_put_of_ne _ (by simp [hk.symm]) e, fun _ => rfl,
      fun _ => rfl, rfl⟩
  | fail id k reason =>
    have hk := hne k rfl
    exact ⟨rfl, fun _ => rfl, fun id' => Table.get?_put_of_ne _ (by simp [hk.symm]) reason,
      fun _ => rfl, rfl⟩
  | record id k answer =>
    have hk := hne k rfl
    exact ⟨rfl, fun _ => rfl, fun _ => rfl, fun id' => Table.get?_put_of_ne _ (by simp [hk.symm]) _,
      rfl⟩
  | putMerged k e =>
    exact ⟨rfl, fun _ => rfl, fun _ => rfl, fun _ => rfl, Table.get?_put_of_ne _ (hne k rfl).symm e⟩
  | invalidate k =>
    have hk := hne k rfl
    refine ⟨rfl, fun _ => rfl, fun _ => rfl, fun id => ?_, ?_⟩
    · simp [perform, alterCache, Cache.lookup?_invalidate, hk.symm]
    · simp [perform, alterCache, Cache.invalidate, Table.get?_erase, hk.symm]
  | resolve k rs now => exact holdsSame_resolve (hne k rfl) g rs now
  | resolveFresh k r now => exact holdsSame_resolveFresh (hne k rfl) g r now

theorem HoldsSame.answer_eq (hs : HoldsSame key g h) (r : Repository) :
    h.store.answer key r = g.store.answer key r := by
  simp only [MemoryStore.answer, hs.failure, hs.envelope]

theorem HoldsSame.atHand?_eq (hs : HoldsSame key g h) (r : Repository) (now : Moment) :
    h.atHand? key r now = g.atHand? key r now := by
  simp only [atHand?, hs.answer]

theorem HoldsSame.record (hs : HoldsSame key g h) (id : Text) (a : CachedAnswer) :
    HoldsSame key (g.alterCache (·.record id k a)) (h.alterCache (·.record id k a)) :=
  { hs with answer := fun id' => by simp [alterCache, Cache.lookup?_record, hs.answer] }

def GivesSame {α : Type} (key : MetadataKey) (x y : α × InMemory) : Prop :=
  y.1 = x.1 ∧ HoldsSame key x.2 y.2

theorem HoldsSame.ask (hs : HoldsSame key g h) (r : Repository) (now : Moment) :
    GivesSame key (g.ask key r now) (h.ask key r now) := by
  have hand := hs.atHand?_eq r now
  have hanswer := hs.answer_eq r
  cases ha : g.atHand? key r now with
  | some a =>
    rw [ask_of_atHand ha, ask_of_atHand (hand.trans ha)]
    exact ⟨rfl, { hs with }⟩
  | none =>
    cases hf : g.store.answer key r with
    | error e =>
      rw [ask_of_error ha hf, ask_of_error (hand.trans ha) (hanswer.trans hf)]
      exact ⟨rfl, { hs with }⟩
    | ok found =>
      rw [ask_of_ok ha hf, ask_of_ok (hand.trans ha) (hanswer.trans hf)]
      cases r.isLocal with
      | true => exact ⟨rfl, { hs with }⟩
      | false => exact ⟨rfl, { hs.record r.id ⟨found, now⟩ with }⟩

theorem HoldsSame.collect (hs : HoldsSame key g h) (now : Moment) (e : Envelope)
    (rs : List Repository) :
    GivesSame key (g.collect key now e rs) (h.collect key now e rs) := by
  induction rs generalizing g h e with
  | nil => exact ⟨rfl, hs⟩
  | cons r rs ih =>
    have hask := hs.ask r now
    rw [Registry.collect, Registry.collect]
    generalize g.ask key r now = x, h.ask key r now = y at hask
    obtain ⟨_, g'⟩ := x
    obtain ⟨answer, h'⟩ := y
    obtain ⟨rfl, hs'⟩ := hask
    cases answer with
    | error err => exact ⟨rfl, hs'⟩
    | ok found => exact ih hs' _

theorem HoldsSame.resolve (hs : HoldsSame key g h) (rs : List Repository) (now : Moment) :
    GivesSame key (g.resolve key rs now) (h.resolve key rs now) := by
  have hcollect := hs.collect now (.forKey key) (g.reachable rs)
  have hreachable : h.reachable rs = g.reachable rs := by
    rw [reachable, hs.online, ← reachable]
  rw [Registry.resolve, Registry.resolve, ← reachable, ← reachable, hreachable]
  generalize g.collect key now (.forKey key) (g.reachable rs) = x,
    h.collect key now (.forKey key) (g.reachable rs) = y at hcollect
  obtain ⟨_, g'⟩ := x
  obtain ⟨answer, h'⟩ := y
  obtain ⟨rfl, hs'⟩ := hcollect
  cases answer with
  | error err => exact ⟨rfl, hs'⟩
  | ok e => exact ⟨rfl, { hs' with merged := by simp [Cache.putMerged] }⟩

theorem HoldsSame.resolveFresh (hs : HoldsSame key g h) (r : Repository) (now : Moment) :
    GivesSame key (g.resolveFresh key r now) (h.resolveFresh key r now) := by
  simp only [Registry.resolveFresh, Store.fetch, hs.answer_eq r]
  cases g.store.answer key r with
  | error err => exact ⟨rfl, { hs with }⟩
  | ok found => exact ⟨rfl, { hs.record r.id ⟨found, now⟩ with }⟩

/-- Operations on a key depend on what is held for it, and leave the same if they find the same. -/
theorem HoldsSame.perform (hs : HoldsSame key g h) (hop : op.concerns key = true) :
    GivesSame key (g.perform op) (h.perform op) := by
  have heq : ∀ k, op.key? = some k → k = key := by
    intro k hk
    simpa [Operation.concerns_of_key? hk] using hop
  cases op with
  | put id e =>
    refine ⟨rfl, { hs with envelope := fun id' => ?_ }⟩
    have henvelope := hs.envelope id'
    simp only [MemoryStore.get?] at henvelope
    simp [Registry.perform, alterStore, MemoryStore.get?, MemoryStore.put, Table.get?_put,
      henvelope]
  | fail id k reason =>
    refine ⟨rfl, { hs with failure := fun id' => ?_ }⟩
    simp [Registry.perform, alterStore, MemoryStore.fail, Table.get?_put, hs.failure]
  | setOnline isOnline => exact ⟨rfl, { hs with online := rfl }⟩
  | get id k =>
    obtain rfl := heq k rfl
    exact ⟨congrArg Outcome.envelope (hs.envelope id), hs⟩
  | record id k answer => exact ⟨rfl, { hs.record id answer with }⟩
  | lookup id k =>
    obtain rfl := heq k rfl
    exact ⟨congrArg Outcome.cached (hs.answer id), hs⟩
  | merged k =>
    obtain rfl := heq k rfl
    exact ⟨congrArg Outcome.envelope hs.merged, hs⟩
  | putMerged k e =>
    refine ⟨rfl, { hs with merged := ?_ }⟩
    simp [Registry.perform, alterCache, Cache.putMerged, Table.get?_put, hs.merged]
  | invalidate k =>
    refine ⟨rfl, { hs with answer := fun id => ?_, merged := ?_ }⟩
    · simp [Registry.perform, alterCache, Cache.lookup?_invalidate, hs.answer]
    · simp [Registry.perform, alterCache, Cache.invalidate, Table.get?_erase, hs.merged]
  | clear => exact ⟨rfl, { hs with answer := fun _ => rfl, merged := rfl }⟩
  | resolve k rs now =>
    obtain rfl := heq k rfl
    obtain ⟨hanswer, hs'⟩ := hs.resolve rs now
    exact ⟨congrArg Outcome.ofMerged hanswer, hs'⟩
  | resolveFresh k r now =>
    obtain rfl := heq k rfl
    obtain ⟨hanswer, hs'⟩ := hs.resolveFresh r now
    exact ⟨congrArg Outcome.ofAnswer hanswer, hs'⟩

def session (g : InMemory) (ops : List Operation) : List (Operation × Outcome) :=
  ops.zip (g.performAll ops).1

theorem session_cons (g : InMemory) (op : Operation) (ops : List Operation) :
    g.session (op :: ops) = (op, (g.perform op).1) :: (g.perform op).2.session ops := rfl

theorem performAll_filter (hs : HoldsSame key g h) (ops : List Operation) :
    (g.session ops).filter (·.1.concerns key) = h.session (ops.filter (·.concerns key)) ∧
      HoldsSame key (g.performAll ops).2 (h.performAll (ops.filter (·.concerns key))).2 := by
  induction ops generalizing g h with
  | nil => exact ⟨rfl, hs⟩
  | cons op ops ih =>
    rw [session_cons]
    cases hop : op.concerns key with
    | true =>
      obtain ⟨hanswer, hs'⟩ := hs.perform hop
      obtain ⟨hsession, hlast⟩ := ih hs'
      simp only [List.filter_cons, hop, if_true, session_cons, hsession, hanswer]
      exact ⟨trivial, hlast⟩
    | false =>
      have hs' := (holdsSame_perform g hop).symm.trans hs
      simp only [List.filter_cons, hop]
      exact ih hs'

/-- Operations on other keys can be left out of a session. What is left answers as it did before,
and in the end the same is held for the key. -/
theorem keys_are_separate (g : InMemory) (key : MetadataKey) (ops : List Operation) :
    (g.session ops).filter (·.1.concerns key) = g.session (ops.filter (·.concerns key)) ∧
      HoldsSame key (g.performAll ops).2 (g.performAll (ops.filter (·.concerns key))).2 :=
  performAll_filter (.refl key g) ops

end Registry

end Mediation
