import Mediation.Proofs.Constraint.Selection
import Mediation.Proofs.Resolution.Agreement
import Mediation.Proofs.Resolution.Scopes
import Mediation.Proofs.Run.Encounter

/-! # Narrowing to one version

Among fixed versions, and without moving targets, a newcomer has the version that its declaration
calls for. Narrowed with a winner it has the one that both call for, and so has the winner. It keeps
another one only if it was declared with the version that is now recommended.
-/

namespace Mediation

theorem Constraint.isConcrete_of_intersect {c d e : Constraint} (hc : c.isConcrete = true)
    (hd : d.isConcrete = true) (h : c.intersect d = .ok e) : e.isConcrete = true := by
  unfold isConcrete at hc hd ⊢
  cases hr : e.recommended with
  | none => rfl
  | some r =>
    rcases (of_recommended_intersect h hr).1 with hr | hr
    · exact hr ▸ hc
    · exact hr ▸ hd

variable {σ : Type} {src : Source σ} {st : σ} {listing : Key → List Version}

def Source.Tabulates (src : Source σ) (st : σ) (listing : Key → List Version) : Prop :=
  ∀ st' c vs, src.Later st st' → (src.versions c st').1 = .ok vs → vs = listing c.key

theorem Catalog.tabulates (s : Catalog) (latency : ℕ) :
    (Catalog.source latency).Tabulates s s.versionsOf := by
  intro t c vs hl h
  change t.listing c = .ok vs at h
  unfold Catalog.listing at h
  cases hc : t.check c with
  | error e =>
    rw [hc] at h
    cases h
  | ok u =>
    rw [hc] at h
    cases h
    unfold Catalog.versionsOf Catalog.releasesOf
    rw [Catalog.releases_of_later hl]

/-- What is offered is called for, unless it is a moving target made concrete. -/
theorem Source.Offers.calls {a : Coordinate} {c : Constraint} {v : Version}
    (h : src.Offers st a c v) (ht : src.Tabulates st listing) (hc : c.isConcrete = true) :
    c.Calls (listing a.key) v := by
  cases h with
  | recommended hr _ => exact .recommended hr (Version.same_refl v)
  | concrete hr ho _ _ =>
    rw [Constraint.isConcrete, hr] at hc
    simp [ho] at hc
  | listed hr hl hv hs => exact .highest hr (ht _ _ _ hl hv ▸ hs)

def Node.terms (n : Node) : Key × Constraint × Constraint × Option Version × Option Version :=
  (n.key, n.declaredConstraint, n.constraint, n.artifact.declared, n.version)

/-- Whether a version is called for by the declaration of a node, and is the declared one. -/
def Node.IsDeclared (listing : Key → List Version) (n : Node) (v : Version) : Prop :=
  n.declaredConstraint.Calls (listing n.key) v ∧ n.artifact.declared.any v.same = true

/-- What is known of a pending node: it comes with what its declaration recommends, is given the
version that this calls for, may be narrowed then, and is given another version if need be. -/
structure Node.Seeks (listing : Key → List Version) (n : Node) : Prop where
  bare : n.version = none → n.artifact.declared = n.declaredConstraint.recommended
  blank : n.constraint = n.declaredConstraint → ∀ v, n.version = some v → n.IsDeclared listing v
  met : ∀ v, n.version = some v → n.constraint.Calls (listing n.key) v ∨
    n.IsDeclared listing v ∧ ∃ k : Constraint, k.intersect n.declaredConstraint = .ok n.constraint

/-- Whether a node seeks the version that is called for while it is pending, and has one that
suits its constraint once it has its place. -/
structure Node.Aims (listing : Key → List Version) (n : Node) : Prop where
  concrete : n.constraint.isConcrete = true
  seeks : n.state = .pending → n.Seeks listing
  settled : n.state = .included ∨ n.state = .omittedForConflict → ∀ v, n.version = some v →
    n.constraint.Suits (listing n.key) v

/-- Whether a node was declared with what a constraint recommends, but has another version. -/
def Node.Lingers (n : Node) (c : Constraint) : Prop :=
  ∃ r, c.recommended = some r ∧ n.artifact.declared.any r.same = true ∧
    n.version.any r.same = false

namespace Node

variable {m n : Node} {c k : Constraint} {v w : Version}

theorem Seeks.of_terms (h : m.Seeks listing) (he : n.terms = m.terms) : n.Seeks listing := by
  simp only [terms, Prod.mk.injEq] at he
  obtain ⟨hk, hd, hc, ha, hv⟩ := he
  exact {
    bare := by
      rw [hv, ha, hd]
      exact h.bare
    blank := by
      unfold IsDeclared
      rw [hc, hd, hv, hk, ha]
      exact h.blank
    met := by
      unfold IsDeclared
      rw [hc, hd, hv, hk, ha]
      exact h.met }

theorem Aims.of_terms (h : m.Aims listing) (he : n.terms = m.terms)
    (hp : n.state = .pending → m.state = .pending)
    (hs : n.state = .included ∨ n.state = .omittedForConflict → ∀ v, m.version = some v →
      m.constraint.Suits (listing m.key) v) : n.Aims listing := by
  have hseeks (hn : n.state = .pending) : n.Seeks listing := (h.seeks (hp hn)).of_terms he
  simp only [terms, Prod.mk.injEq] at he
  obtain ⟨hk, hd, hc, ha, hv⟩ := he
  refine ⟨by rw [hc]; exact h.concrete, hseeks, ?_⟩
  rw [hv, hc, hk]
  exact hs

theorem Aims.of_suits (hc : n.constraint.isConcrete = true) (hn : n.state ≠ .pending)
    (hv : n.version = some v) (hs : n.constraint.Suits (listing n.key) v) : n.Aims listing := by
  refine ⟨hc, fun hp => absurd hp hn, fun _ w hw => ?_⟩
  obtain rfl := Option.some.inj (hv.symm.trans hw)
  exact hs

theorem Aims.of_seeks (hc : n.constraint.isConcrete = true) (hn : n.state = .pending)
    (hs : n.Seeks listing) : n.Aims listing := by
  refine ⟨hc, fun _ => hs, fun h => ?_⟩
  rw [hn] at h
  exact absurd h (by decide)

/-- A version that is called for by a declaration is the declared one from its selection on. -/
theorem Seeks.isDeclared_select (h : n.Seeks listing)
    (hl : ∀ k, ∀ v ∈ listing k, v.isSnapshot = false) (hn : n.constraint = n.declaredConstraint)
    (hv : n.declaredConstraint.Calls (listing n.key) v) :
    ({ n with artifact := n.artifact.select v } : Node).IsDeclared listing v := by
  refine ⟨hv, ?_⟩
  change (n.artifact.declared.or (some v.base)).any v.same = true
  cases hver : n.version with
  | some w =>
    -- the version that it had was called for, too
    obtain ⟨hw, hd⟩ := h.blank hn w hver
    obtain ⟨b, hb, hwb⟩ := (Option.any_eq_true _ _).mp hd
    rw [hb]
    exact Version.same_trans (hv.same hw) hwb
  | none =>
    rw [h.bare hver]
    cases hv with
    | recommended hr hvr =>
      rw [hr]
      exact hvr
    | highest hr hs =>
      have hbase : v.base = v := by
        have hsnap := hl _ v (Constraint.of_select_eq_ok hs).1
        rw [Version.isSnapshot, Bool.or_eq_false_iff] at hsnap
        have hbuild : v.build? = none :=
          Option.isNone_iff_eq_none.mp (Option.isSome_eq_false_iff.mp hsnap.2)
        rw [Version.base, hbuild]
      rw [hr, hbase]
      exact Version.same_refl v

/-- A node with the version that its declaration calls for gets what a narrower one calls for. -/
theorem IsDeclared.exists_calls (h : n.IsDeclared listing v) (hv : n.version = some v)
    (ht : src.Tabulates st listing) (hc : c.isConcrete = true)
    (hm : k.intersect n.declaredConstraint = .ok c)
    (hs : Collection.Submits (src.evidence st) c n m) :
    ∃ w, m.version = some w ∧ c.Calls (listing n.key) w := by
  obtain ⟨-, choice, hchoice, hver⟩ := hs
  cases hchoice with
  | keep hk => exact ⟨v, hver.trans hv, h.1.retain hm hv h.2 hk⟩
  | @move w _ ho => exact ⟨w, hver, Source.Offers.calls ho ht hc⟩

theorem Lingers.keepsVersion (h : n.Lingers c) (hv : n.version = some v) :
    Run.keepsVersion n.artifact c = true := by
  obtain ⟨r, hr, hd, -⟩ := h
  have hv : n.artifact.selected = some v := hv
  simp [Run.keepsVersion, hr, hv, hd]

/-- A node with a version that suited its constraint gets what a narrower one calls for, unless it
lingers. -/
theorem calls_or_lingers (h : n.constraint.Suits (listing n.key) v) (hv : n.version = some v)
    (ht : src.Tabulates st listing) (hc : c.isConcrete = true)
    (hm : n.constraint.intersect k = .ok c)
    (hs : Collection.Submits (src.evidence st) c n m) :
    ∃ w, m.version = some w ∧ (n.Lingers c → n.version = some w) ∧
      (¬ n.Lingers c → c.Calls (listing n.key) w) := by
  obtain ⟨-, choice, hchoice, hver⟩ := hs
  cases hchoice with
  | keep hk =>
    have hcalls := (h.retain hm hv hk).calls_of_keepsVersion hv hk
    refine ⟨v, hver.trans hv, fun _ => hv, fun hn => hcalls.resolve_right ?_⟩
    rintro ⟨r, hr, hd, hrv⟩
    exact hn ⟨r, hr, hd, by rw [hv]; exact hrv⟩
  | @move w hk ho =>
    refine ⟨w, hver, fun hn => ?_, fun _ => Source.Offers.calls ho ht hc⟩
    exact absurd (hn.keepsVersion hv) (Bool.eq_false_iff.mp hk)

theorem Aims.calls (h : n.Aims listing) (ht : src.Tabulates st listing) (hp : n.state = .pending)
    (hb : n.IsBacked (src.evidence st)) (hv : n.version = some v) :
    n.constraint.Calls (listing n.key) v := by
  rcases hb with hk | ⟨w, hw, ho⟩
  · rcases (h.seeks hp).met v hv with hc | ⟨⟨hc, hd⟩, k, hm⟩
    · exact hc
    · exact hc.retain hm hv hd hk
  · obtain rfl := Option.some.inj (hw.symm.trans hv)
    exact Source.Offers.calls ho ht h.concrete

end Node

namespace Collection

variable {rules : Rules} {ev : Evidence} {s t : Collection} {j x : ℕ} {d : Descriptor}

theorem Turns.pending (h : Turns ev s t j) (ht : (t.node j).state = .pending) :
    (s.node j).state = .pending := by
  cases h with
  | stays hst => exact hst ▸ ht
  | sits _ _ hst => exact absurd (hst.symm.trans ht) (by decide)
  | falls _ _ hst => exact absurd (hst.symm.trans ht) (by decide)
  | rises _ _ hst => exact absurd (hst.symm.trans ht) (by decide)
  | fails hst => exact absurd (hst.symm.trans ht) (by decide)

/-- Whether no moving target was declared, and all nodes in play aim at what is called for. -/
structure Aiming (listing : Key → List Version) (s : Collection) : Prop where
  complies : s.Complies fun c => c.isConcrete = true
  node : ∀ j : ℕ, s.InPlay j → (s.node j).state ≠ .failed → (s.node j).Aims listing

namespace Aiming

theorem agrees (h : s.Aiming listing) (ha : s.Agrees t) : t.Aiming listing where
  complies := h.complies.of_fades (E := ∅) (.of_agrees ha)
  node j hj hf := by
    rw [ha.state] at hf
    have hab := h.node j ((Fades.of_agrees (E := ∅) ha).inPlay j hj) hf
    refine hab.of_terms (congrArg Node.terms (ha.core j) :) ?_ ?_
    · rw [ha.state]
      exact id
    · rw [ha.state]
      exact hab.settled

theorem move {a b : Situation} (h : a.1.Aiming listing)
    (hl : ∀ k, ∀ v ∈ listing k, v.isSnapshot = false) (ht : src.Tabulates st listing)
    (m : Move rules (src.evidence st) x a b) (hs : Steady a) : b.1.Aiming listing := by
  obtain ⟨E, hf⟩ := m.fades hs
  refine ⟨h.complies.of_fades hf, fun j hj hn => ?_⟩
  have hturn := m.turns hs hj
  have hb := m.becomes hs hj
  have hab := h.node j (hf.inPlay j hj) (hb.live hn)
  -- the constraint of a newcomer recommends no moving target, whoever it is narrowed with
  have hnarrow {i : ℕ} {c : Constraint} (hnar : a.1.IsNarrowing x i c) : c.isConcrete = true := by
    have hx := Steady.pending_contender hs.sound hnar.pending
    have hd := h.complies.declared x (hs.sound.ne_root_of_contender hx)
      (hs.sound.lt_size_of_contender hx)
    have hi := h.node i (hs.sound.inPlay_of_rival hnar.rival)
      (by rw [isIncluded_iff.mp hnar.rival.included]; decide)
    exact Constraint.isConcrete_of_intersect hi.concrete hd hnar.meeting
  cases hb with
  | rest hst =>
    refine hab.of_terms (congrArg Node.terms hst :) hturn.pending fun hst v hv => ?_
    rcases hturn.settled hst with hold | ⟨hp, hbacked⟩
    · exact hab.settled hold v hv
    · exact .inl (hab.calls ht hp hbacked hv)
  | @choose v hjx hp hv he =>
    subst hjx
    have hcalls := Source.Offers.calls hv ht hab.concrete
    rw [he]
    refine .of_seeks hab.concrete hp ⟨nofun, fun hcon w hw => ?_, fun w hw => ?_⟩
    · obtain rfl := Option.some.inj hw
      exact (hab.seeks hp).isDeclared_select hl hcon (hcon ▸ hcalls)
    · obtain rfl := Option.some.inj hw
      exact .inl hcalls
  | tighten hjx hnar hd he =>
    subst hjx
    have hseeks := hab.seeks hnar.pending
    rw [he]
    refine .of_seeks (hnarrow hnar) hnar.pending
      ⟨hseeks.bare, fun _ => hseeks.blank hd, fun v hv => ?_⟩
    exact .inr ⟨hseeks.blank hd v hv, _, hnar.meeting⟩
  | retain hnar hk he =>
    have hi := isIncluded_iff.mp hnar.rival.included
    rw [he]
    refine ⟨hnarrow hnar, fun hp => absurd (hi.symm.trans hp) (by decide), fun _ v hv => ?_⟩
    exact (hab.settled (.inl hi) v hv).retain hnar.meeting hv hk
  | @shift c v hnar hv he =>
    have hi := isIncluded_iff.mp hnar.rival.included
    have hcon : (b.1.node j).constraint = c := (congrArg Node.constraint he :)
    have hver : (b.1.node j).version = some v := (congrArg Node.version he :)
    have hkey : (b.1.node j).key = (a.1.node j).key := (congrArg Node.key he :)
    refine .of_suits (hcon ▸ hnarrow hnar) ?_ hver ?_
    · rw [Node.state_of_core he]
      exact fun hp => absurd (hi.symm.trans hp) (by decide)
    · rw [hcon, hkey]
      exact .inl (Source.Offers.calls hv ht (hnarrow hnar))
  | fail hst => exact absurd hst hn

theorem expand (h : s.Aiming listing) (hs : s.Sound) (hx : x < s.graph.size)
    (hc : (s.expand rules x d).2.Complies fun c => c.isConcrete = true) :
    (s.expand rules x d).2.Aiming listing := by
  refine ⟨hc, fun j hj hn => ?_⟩
  rcases of_inPlay_expand hx d hs hj with ⟨hlt, hj⟩ | ⟨hge, hlt, hp⟩
  · have hst : ((s.expand rules x d).2.node j).state = (s.node j).state := state_expand hx d hlt
    have hab := h.node j hj (hst ▸ hn)
    refine hab.of_terms (view_expand hx d Node.terms (fun _ => rfl) (fun _ _ => rfl) hlt) ?_ ?_
    · rw [hst]
      exact id
    · rw [hst]
      exact hab.settled
  · -- a new node has nothing but its declaration
    have hdec := hc.declared j (Nat.ne_of_gt (hs.tree.size_pos.trans_le hge)) hlt
    obtain ⟨_, _, e, -, hnode⟩ := exists_child_of_new rules hs.tree hx d hge hlt
    rw [hnode] at hdec hp ⊢
    exact .of_seeks hdec hp ⟨fun _ => rfl, fun _ _ => nofun, fun _ => nofun⟩

end Aiming

end Collection

namespace Resolver

open Collection Run

variable {resolver : Resolver σ} {q : Request} {r r' : Run σ} {current x : ℕ}

theorem lasts_aiming (hl : ∀ k, ∀ v ∈ listing k, v.isSnapshot = false)
    (ht : resolver.source.Tabulates st listing)
    (hc : ∀ d, resolver.Declares q st d → ∀ c ∈ d.constraints, c.isConcrete = true) :
    resolver.Lasts q st (Aiming listing) where
  start := ⟨(lasts_complies hc).start, fun j hj => absurd hj.1 List.not_mem_nil⟩
  clear h := h.agrees (agrees_clear _)
  move m hs h := h.move hl ht m hs
  expand {s x d} hs h hx hd := by
    have hlt : x < s.graph.size := Graph.lt_size_of_isIncluded (isIncluded_iff.mpr hx)
    exact h.expand hs hlt ((lasts_complies hc).expand hs h.complies hx hd)

/-- A narrowing after which neither node has failed leaves a winner and a newcomer with one
constraint, which accepts what both accepted before, and the newcomer has the version that it calls
for: the recommended one or else the highest acceptable one. So has the winner, with one exception:
a winner that was declared with what is recommended, but has another version, stays with it. -/
theorem versions_agree_after_narrowing
    (hl : ∀ k, ∀ v ∈ listing k, v.isSnapshot = false)
    (ht : resolver.source.Tabulates st listing)
    (hc : ∀ d, resolver.Declares q st d → ∀ c ∈ d.constraints, c.isConcrete = true)
    (h : resolver.Meets q st current x r)
    (hsoft : ((r.collection.node current).constraint.isSoft &&
      (r.collection.node x).constraint.isSoft) = false)
    (hr : restrict (resolver.session q) current x r = .ok () r')
    (hlive : (r'.collection.node current).state ≠ .failed ∧
      (r'.collection.node x).state ≠ .failed) :
    ∃ c v w, (r'.collection.node current).constraint = c ∧
      (r'.collection.node x).constraint = c ∧
      (∀ u, c.contains u = true ↔ (r.collection.node current).constraint.contains u = true ∧
        (r.collection.node x).constraint.contains u = true) ∧
      (r'.collection.node x).version = some v ∧ c.Calls (listing (r.collection.node x).key) v ∧
      (r'.collection.node current).version = some w ∧
      (¬ (r.collection.node current).Lingers c → w.same v = true) ∧
      ((r.collection.node current).Lingers c → (r.collection.node current).version = some w) := by
  have hst := h.steady
  have haim := h.of_lasts (lasts_aiming hl ht hc)
  have hii := isIncluded_iff.mp h.rival.included
  obtain ⟨hp, hblank⟩ := h.newcomer
  obtain ⟨v, hv⟩ := Option.isSome_iff_exists.mp h.versioned
  have hcr := hst.sound.ne_root_of_contender h.rival.mem
  obtain ⟨w, hw⟩ := Option.isSome_iff_exists.mp (hst.sound.versioned current hcr hii)
  have hwinner := haim.node current (hst.sound.inPlay_of_rival h.rival) (by rw [hii]; decide)
  have hnewcomer := haim.node x (hst.sound.inPlay_of_pending hp) (by rw [hp]; decide)
  obtain ⟨c, hm, hsc, hsx⟩ := (h.narrows hr).submits hst h.ne hp h.rival.mem hii hsoft
    hlive.1 hlive.2
  have hconcrete := Constraint.isConcrete_of_intersect hwinner.concrete hnewcomer.concrete hm
  have hdeclared := (hnewcomer.seeks hp).blank hblank v hv
  obtain ⟨v', hv', hcalls⟩ := hdeclared.exists_calls hv ht hconcrete (hblank ▸ hm) hsx
  obtain ⟨w', hw', hstays, hmoves⟩ := Node.calls_or_lingers (hwinner.settled (.inl hii) w hw) hw ht
    hconcrete hm hsc
  rw [h.rival.key] at hmoves
  exact ⟨c, v', w', hsc.1, hsx.1, Constraint.contains_intersect hm, hv', hcalls, hw',
    fun hn => (hmoves hn).same hcalls, hstays⟩

def between (low high : Text) : Constraint :=
  ⟨none, [⟨some ⟨⟨low⟩, true⟩, some ⟨⟨high⟩, true⟩⟩]⟩

def relapsing : Catalog :=
  (shelf [("a", "3", []), ("a", "4", []), ("a", "5", []), ("c", "1", [("d", "1")]),
    ("e", "1", [("a", "3")]), ("f", "1", [("a", "4")]), ("i", "1", [("a", "4")]), ("p", "1", []),
    ("q", "1", [("f", "1")])])
  |>.add (library "p").key ⟨"2"⟩
    ⟨[.plain (library "a") (between "1" "5"), .plain (library "e") (.soft ⟨"1"⟩)], .empty⟩
  |>.add (library "d").key ⟨"1"⟩
    ⟨[.plain (library "p") (.exact ⟨"1"⟩), .plain (library "h") (.soft ⟨"1"⟩),
      .plain (library "i") (.soft ⟨"1"⟩)], .empty⟩
  |>.add (library "h").key ⟨"1"⟩ ⟨[.plain (library "a") (between "4" "5")], .empty⟩

def relapse : Request :=
  .anonymous [.plain (library "p") (between "1" "2"), .plain (library "q") (.soft ⟨"1"⟩),
    .plain (library "c") (.soft ⟨"1"⟩)] .empty

/-- A library that was declared in one version, lost, and was moved to a newer version when it had
been revived, keeps that version when its first one comes to be recommended. -/
theorem winner_stays_behind_of_relapse :
    (∀ k, ∀ v ∈ relapsing.versionsOf k, v.isSnapshot = false) ∧
      (ofPolicy .nearest).source.Tabulates relapsing relapsing.versionsOf ∧
      (∀ d, (ofPolicy .nearest).Declares relapse relapsing d → ∀ c ∈ d.constraints,
        c.isConcrete = true) ∧
      ∃ r r', (ofPolicy .nearest).Meets relapse relapsing 9 14 r ∧
        ((r.collection.node 9).constraint.isSoft &&
          (r.collection.node 14).constraint.isSoft) = false ∧
        restrict ((ofPolicy .nearest).session relapse) 9 14 r = .ok () r' ∧
        ((r'.collection.node 9).state ≠ .failed ∧ (r'.collection.node 14).state ≠ .failed) ∧
        (r'.collection.node 14).version = some ⟨"4"⟩ ∧
        (r'.collection.node 9).version = some ⟨"5"⟩ ∧
        (r.collection.node 9).Lingers (r'.collection.node 9).constraint := by
  have hl (k : Key) (v : Version) (hv : v ∈ relapsing.versionsOf k) : v.isSnapshot = false := by
    have hall : ∀ e ∈ relapsing.releases.entries, ∀ r ∈ e.2, r.version.isSnapshot = false := by
      decide +kernel
    obtain ⟨r, hr, rfl⟩ := List.mem_map.mp hv
    obtain ⟨e, he, hr⟩ := Catalog.exists_entry_of_mem hr
    exact hall e he r hr
  have hall : ∀ d ∈ (relapsing.inventory relapse.descriptor).descriptors,
      ∀ c ∈ d.constraints, c.isConcrete = true := by
    decide +kernel
  have hc (d : Descriptor) (hd : (ofPolicy .nearest).Declares relapse relapsing d) :
      ∀ c ∈ d.constraints, c.isConcrete = true :=
    hall d (mem_of_declares (relapsing.inventory_holds _) hd)
  have hrun : passes (encounter ((ofPolicy .nearest).session relapse) 3 14
      ((ofPolicy .nearest).start relapse relapsing).1)
      ((ofPolicy .nearest).start relapse relapsing).2
      (fun c r => c == some 9 && !((r.collection.node 9).constraint.isSoft &&
          (r.collection.node 14).constraint.isSoft) &&
        passes (restrict ((ofPolicy .nearest).session relapse) 9 14) r fun _ r' =>
          (r'.collection.node 9).state != .failed && (r'.collection.node 14).state != .failed &&
            (r'.collection.node 14).version == some ⟨"4"⟩ &&
            (r'.collection.node 9).version == some ⟨"5"⟩) = true := by
    decide +kernel
  obtain ⟨c, r, hm, hcheck⟩ := passes_iff.mp hrun
  simp only [Bool.and_eq_true, beq_iff_eq, Bool.not_eq_true'] at hcheck
  obtain ⟨⟨rfl, hsoft⟩, hcheck⟩ := hcheck
  obtain ⟨_, r', hr, hcheck⟩ := passes_iff.mp hcheck
  simp only [Bool.and_eq_true, beq_iff_eq, bne_iff_ne] at hcheck
  obtain ⟨⟨hlive, hv⟩, hw⟩ := hcheck
  have ht := relapsing.tabulates 0
  have hmeets := meets_of_encounter hm
  refine ⟨hl, ht, hc, r, r', hmeets, hsoft, hr, hlive, hv, hw, ?_⟩
  obtain ⟨c, v, w, hcon, -, -, hv', -, hw', hsame, -⟩ :=
    versions_agree_after_narrowing hl ht hc hmeets hsoft hr hlive
  obtain rfl := Option.some.inj (hv.symm.trans hv')
  obtain rfl := Option.some.inj (hw.symm.trans hw')
  rw [hcon]
  by_contra hn
  exact absurd (hsame hn) (by decide +kernel)

end Resolver

end Mediation
