import Mediation.Proofs.Run.Outcome

/-! # Histories of runs

The steps of a run as a relation between the points that it goes through, with what each of them
does to the collection. A node may be expanded more than once; what it has come from is the last
of its expansions.
-/

namespace Mediation

namespace Run

open Collection

variable {σ : Type}

/-- A stage of a run, and the run as it is there. -/
abbrev Point (σ : Type) := Stage × Run σ

namespace Point

abbrev collection (a : Point σ) : Collection := a.2.collection

def IsExpanding (a : Point σ) (x : NodeId) (d : Descriptor) : Prop :=
  (∃ rest created, a.1 = .describing ((x, .ok d) :: rest) created) ∧
    (a.collection.node x).state = .included

end Point

inductive Advances (session : Session σ) : Point σ → Point σ → Prop
  | select {ids : List NodeId} {r r' : Run σ} {rest : List (NodeId × Except NodeError Version)}
      (hn : r.isSettled ids = false) (hs : selectAll session ids r = .ok rest r') :
      Advances session (.level ids, r) (.registering rest ids, r')
  | register {ids : List NodeId} {r r' : Run σ} {x : NodeId} {v : Except NodeError Version}
      {rest : List (NodeId × Except NodeError Version)} {u : Unit}
      (hs : register session x v r = .ok u r') :
      Advances session (.registering ((x, v) :: rest) ids, r) (.registering rest ids, r')
  | fetch {ids : List NodeId} {r r' : Run σ} {rest : List (NodeId × SourceAnswer Descriptor)}
      (hs : fetchAll session ids r = .ok rest r') :
      Advances session (.registering [] ids, r) (.describing rest [], r')
  | describe {created ids : List NodeId} {r r' : Run σ} {x : NodeId} {d : SourceAnswer Descriptor}
      {rest : List (NodeId × SourceAnswer Descriptor)}
      (hs : describe session x d r = .ok ids r') :
      Advances session (.describing ((x, d) :: rest) created, r)
        (.describing rest (created ++ ids), r')
  | next {created : List NodeId} {r : Run σ} :
      Advances session (.describing [] created, r) (.level created, r)

abbrev Leads (session : Session σ) : Point σ → Point σ → Prop :=
  Relation.ReflTransGen (Advances session)

variable {session : Session σ} {st : σ} {a b z w : Point σ} {x y : NodeId} {d e : Descriptor}
  {level : List NodeId} {r₀ : Run σ}

theorem leads_of_reaches {stage : Stage} {r : Run σ} (h : Reaches session level r₀ stage r) :
    Leads session (.level level, r₀) (stage, r) := by
  induction h with
  | start => exact .refl
  | select _ hn hs ih => exact ih.tail (.select hn hs)
  | register _ hs ih => exact ih.tail (.register hs)
  | fetch _ hs ih => exact ih.tail (.fetch hs)
  | describe _ hs ih => exact ih.tail (.describe hs)
  | next _ ih => exact ih.tail .next

theorem Reaches.advance (h : Reaches session level r₀ a.1 a.2) (hs : Advances session a b) :
    Reaches session level r₀ b.1 b.2 := by
  cases hs with
  | select hn hs => exact h.select hn hs
  | register hs => exact h.register hs
  | fetch hs => exact h.fetch hs
  | describe hs => exact h.describe hs
  | next => exact h.next

theorem Reaches.leads (h : Reaches session level r₀ a.1 a.2) (hl : Leads session a b) :
    Reaches session level r₀ b.1 b.2 := by
  induction hl with
  | refl => exact h
  | tail _ hs ih => exact ih.advance hs

theorem Advances.unique (h : Advances session a b) (h' : Advances session a w) : b = w := by
  cases h with
  | select _ hs =>
    cases h' with
    | select _ hs' => cases hs.symm.trans hs'; rfl
  | register hs =>
    cases h' with
    | register hs' => cases hs.symm.trans hs'; rfl
  | fetch hs =>
    cases h' with
    | fetch hs' => cases hs.symm.trans hs'; rfl
  | describe hs =>
    cases h' with
    | describe hs' => cases hs.symm.trans hs'; rfl
  | next =>
    cases h' with
    | next => rfl

theorem Point.IsExpanding.unique (h : a.IsExpanding x d) (h' : a.IsExpanding y e) :
    x = y ∧ d = e := by
  obtain ⟨⟨rest, created, h⟩, -⟩ := h
  obtain ⟨⟨rest', created', h'⟩, -⟩ := h'
  rw [h] at h'
  cases h'
  exact ⟨rfl, rfl⟩

inductive Evolves (session : Session σ) (st : σ) (a b : Point σ) : Prop
  | rests (h : b.collection = a.collection) (hn : ∀ x d, ¬ a.IsExpanding x d)
  | clears (h : b.collection = { a.collection with requeue := [] })
      (hn : ∀ x d, ¬ a.IsExpanding x d)
  | moves {x : ℕ}
      (h : Moves session.rules (told session st) x (a.collection, []) (b.collection, []))
      (hn : ∀ x d, ¬ a.IsExpanding x d)
  | expands {x : ℕ} {d : Descriptor} (hx : a.IsExpanding x d)
      (hd : IsDescribed session st a.collection x (.ok d))
      (h : b.collection = (a.collection.expand session.rules x d).2)

theorem evolves_of_advances (h : Holds session st a.1 a.2) (hs : Advances session a b) :
    Evolves session st a b := by
  have hother {s : Stage} {r : Run σ} (h : ∀ x d rest created,
      s ≠ .describing ((x, d) :: rest) created) (x : NodeId) (d : Descriptor) :
      ¬ Point.IsExpanding (s, r) x d := fun ⟨⟨rest, created, he⟩, _⟩ => h _ _ _ _ he
  cases hs with
  | select hn hs => exact .rests (of_selectAll_eq_ok hs).1 (hother nofun)
  | register hs => exact .moves (arrives_register h hs).1.moves (hother nofun)
  | fetch hs => exact .clears (of_fetchAll_eq_ok hs).1 (hother nofun)
  | next => exact .rests rfl (hother nofun)
  | @describe created ids r r' x d rest hs =>
    obtain ⟨hp, -, hr⟩ := h
    have hx := hr x d (List.mem_cons_self ..)
    have hself {y : NodeId} {e : Descriptor}
        (he : Point.IsExpanding (Stage.describing ((x, d) :: rest) created, r) y e) :
        x = y ∧ d = .ok e ∧ (r.collection.node y).state = .included := by
      obtain ⟨⟨_, _, he⟩, hi⟩ := he
      cases he
      exact ⟨rfl, rfl, hi⟩
    obtain ⟨hread, -⟩ := reading_of_describe hs
    generalize ht : r'.collection = t at hread
    cases hread with
    | passed hn =>
      refine .rests ht fun y e he => ?_
      obtain ⟨rfl, -, hi⟩ := hself he
      exact hn hi
    | @failed e t hy hf hre =>
      subst ht
      have hlose : Move session.rules (told session st) x (r.collection, [])
          (r.collection.collapse x (.metadata e)) :=
        .lose (.metadata e) hx.ne_root (isIncluded_iff.mpr hy) hx.expanded hf
      refine .moves (.head hlose (Moves.of_reelect hre)) fun y e he => ?_
      obtain ⟨-, he, -⟩ := hself he
      cases he
    | @expanded d hy => exact .expands ⟨⟨rest, created, rfl⟩, hy⟩ hx ht

/-- Whether the last expansion of a node before the point `z` is the step from `a` to `b`, by a
descriptor. -/
structure LastExpands (session : Session σ) (x : NodeId) (d : Descriptor) (a b z : Point σ) :
    Prop where
  expands : a.IsExpanding x d
  step : Advances session a b
  rest : Relation.ReflTransGen (fun u v => Advances session u v ∧ ∀ e, ¬ u.IsExpanding x e) b z

theorem LastExpands.advance (h : LastExpands session x d a b z) (hs : Advances session z w)
    (hn : ∀ e, ¬ z.IsExpanding x e) : LastExpands session x d a b w :=
  ⟨h.expands, h.step, h.rest.tail ⟨hs, hn⟩⟩

theorem LastExpands.leads (h : LastExpands session x d a b z) : Leads session b z :=
  Relation.ReflTransGen.mono (fun _ _ => And.left) _ _ h.rest

end Run

namespace Resolver

open Run

variable {σ : Type} {resolver : Resolver σ} {q : Request} {st : σ} {a z : Point σ}

/-- What holds at a point of a resolution and is kept by all steps holds later on. -/
theorem leads_induct {P : Point σ → Prop} (h : resolver.Reaches q st a.1 a.2) (h₀ : P a)
    (hstep : ∀ b c, resolver.Reaches q st b.1 b.2 → Advances (resolver.session q) b c →
      Evolves (resolver.session q) st b c → P b → P c)
    (hl : Leads (resolver.session q) a z) : P z := by
  have key : resolver.Reaches q st z.1 z.2 ∧ P z := by
    induction hl with
    | refl => exact ⟨h, h₀⟩
    | tail _ hs ih =>
      obtain ⟨hr, hp⟩ := ih
      exact ⟨hr.advance hs, hstep _ _ hr hs (evolves_of_advances (holds_of_reaches hr) hs) hp⟩
  exact key.2

/-- What holds at the start of a resolution and is kept by all steps holds wherever it gets. -/
theorem reaches_induct {P : Point σ → Prop}
    (h₀ : P (.level (resolver.start q st).1, (resolver.start q st).2))
    (hstep : ∀ a b, resolver.Reaches q st a.1 a.2 → Advances (resolver.session q) a b →
      Evolves (resolver.session q) st a b → P a → P b)
    {stage : Stage} {r : Run σ} (h : resolver.Reaches q st stage r) : P (stage, r) :=
  leads_induct (a := (.level (resolver.start q st).1, (resolver.start q st).2)) .start h₀ hstep
    (leads_of_reaches h)

theorem extends_of_leads (h : resolver.Reaches q st a.1 a.2)
    (hl : Leads (resolver.session q) a z) : a.collection.Extends z.collection := by
  refine leads_induct (P := fun z => a.collection.Extends z.collection) h (.of_tells (.refl _))
    (fun b c _ _ hbc he => he.trans ?_) hl
  cases hbc with
  | rests hc => exact hc ▸ .of_tells (.refl _)
  | clears hc => exact hc ▸ ⟨le_rfl, List.prefix_rfl, fun _ _ => rfl⟩
  | moves hm => exact .of_tells hm.tells
  | expands _ hd hc => exact hc ▸ .expand _ hd.lt_size _

theorem leads_of_resolve {fuel : ℕ} {res : Resolution}
    (hr : (resolver.resolve fuel q st).1 = .ok (some res)) (h : resolver.Reaches q st a.1 a.2) :
    Leads (resolver.session q) a (.level [], (resolver.resolve fuel q st).2) := by
  obtain ⟨-, hq, hend⟩ := reaches_of_resolve hr
  have hlast (b : Point σ) :
      ¬ Advances (resolver.session q) (.level [], (resolver.resolve fuel q st).2) b := by
    rintro ⟨hn, -⟩
    simp [isSettled, hq] at hn
  have hunique : Relator.RightUnique (Advances (resolver.session q)) :=
    fun _ _ _ => Advances.unique
  rcases Relation.ReflTransGen.total_of_right_unique hunique (leads_of_reaches h)
    (leads_of_reaches hend) with hl | hl
  · exact hl
  · rcases Relation.ReflTransGen.cases_head hl with he | ⟨b, hb, -⟩
    · exact he ▸ .refl
    · exact absurd hb (hlast b)

end Resolver

end Mediation
