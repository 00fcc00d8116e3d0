import Mediation.Proofs.Collection.Pointing
import Mediation.Proofs.Graph.Printing
import Mediation.Proofs.Resolution.Lasting

/-! # Pointers to winners in a resolution

In the end every visible loser points at the one included node of its identity, whatever became
of the winner that it lost to. So the printed tree names the version that was kept.
-/

namespace Mediation

theorem Graph.label_of_loser {g : Graph} {n : Node} {w : ℕ} {v : Version}
    (hn : n.state = .omittedForConflict) (hk : n.kept = some w) (hw : (g.node w).version = some v) :
    g.label n = if isDuplicate n v then "(" ++ n.artifact.text ++ " - omitted for duplicate)"
      else "(" ++ n.artifact.text ++ " - omitted for conflict with " ++ v.text ++ ")" := by
  have hkept : (n.kept.bind g.get?).bind Node.version = some v := by
    unfold node at hw
    cases hg : g.get? w with
    | none =>
      rw [hg] at hw
      cases hw
    | some m => simpa [hk, hg] using hw
  unfold label
  simp only [hn, hkept]

namespace Resolver

open Collection

variable {σ : Type} {resolver : Resolver σ} {q : Request} {st : σ}

theorem lasts_pointing : resolver.Lasts q st Pointing where
  start :=
    ⟨rfl, fun _ hw => absurd hw.1 List.not_mem_nil, fun _ _ hw => absurd hw.1 List.not_mem_nil⟩
  clear h := ⟨h.root, h.winner, h.loser⟩
  move m hs h := h.move m hs
  expand hs h hx _ := h.expand hs (Graph.lt_size_of_isIncluded (isIncluded_iff.mpr hx)) _

/-- Every visible loser points at the winner: at the one included node of its identity, so that its
line in the printed tree names the version that was kept. Included nodes point nowhere. -/
theorem losers_point_at_winner {fuel : ℕ} {res : Resolution}
    (h : (resolver.resolve fuel q st).1 = .ok (some res)) :
    (∀ m ∈ res.graph.visible, (res.graph.node m).state = .omittedForConflict →
      ∃ w v, (res.graph.node m).kept = some w ∧ (res.graph.node w).version = some v ∧
        (∀ u, u ∈ res.graph.included ∧ (res.graph.node u).key = (res.graph.node m).key ↔ u = w) ∧
        (∃ branches : Text, '\n' ∉ branches ∧
          '\n' :: branches ++ res.graph.label (res.graph.node m) ++ ['\n'] <:+: res.graph.render) ∧
        res.graph.label (res.graph.node m) =
          if Graph.isDuplicate (res.graph.node m) v then
            "(" ++ (res.graph.node m).artifact.text ++ " - omitted for duplicate)"
          else
            "(" ++ (res.graph.node m).artifact.text ++ " - omitted for conflict with " ++ v.text ++
              ")") ∧
    ∀ i, (res.graph.node i).state = .included → (res.graph.node i).kept = none := by
  obtain ⟨s, hg, hst, hlasts⟩ := exists_of_resolve h
  have hs := hst.sound
  have hpoint := hlasts _ lasts_pointing
  rw [← hg]
  constructor
  · intro m hm ho
    have hmr : m ≠ Graph.root := by
      rintro rfl
      exact absurd (hs.root_included.symm.trans ho) (by decide)
    have hmp : s.InPlay m := hs.inPlay_of_visible hm hmr (by rw [node, ho]; decide)
    obtain ⟨hmc, p, hpar, hpi⟩ := hmp
    obtain ⟨w, hwr, hwi, hwk⟩ := (hst.seated m p hmc hpar hpi ho).resolve_left
      List.not_mem_nil
    obtain ⟨v, hv⟩ := Option.isSome_iff_exists.mp (hs.versioned w hwr hwi)
    have hkept : (s.node m).kept = some w :=
      hpoint.loser w m (hs.inPlay hwr (.inr hwi)) ⟨hmc, p, hpar, hpi⟩ hwi ho hwk
    have hprinted := hs.tree.label_infix_render (isIncluded_iff.mpr hs.root_included) hm hmr
    refine ⟨w, v, hkept, hv, fun u => ?_, hprinted, Graph.label_of_loser ho hkept hv⟩
    rw [hs.mem_included_iff]
    constructor
    · rintro ⟨⟨hur, hui⟩, huk⟩
      exact hs.unique u w hur hwr hui hwi (huk.trans hwk.symm)
    · rintro rfl
      exact ⟨⟨hwr, hwi⟩, hwk⟩
  · intro i hi
    by_cases hr : i = Graph.root
    · rw [hr]
      exact hpoint.root
    · exact hpoint.winner i (hs.inPlay hr (.inr hi)) hi

def climb : Catalog :=
  shelf [("a", "1", [("b", "2")]), ("c", "1", [("b", "3")]), ("b", "1", []), ("b", "2", []),
    ("b", "3", [])]

/-- A request for the oldest one and the two libraries that want the others. -/
def climbing : Request := .anonymous (wanted [("a", "1"), ("b", "1"), ("c", "1")]) .empty

/-- The oldest one lost to the second one, and points at the newest one in the end. -/
theorem losers_point_at_winner_of_climbing :
    ∃ res, ((ofPolicy .newest).resolve 5 climbing climb).1 = .ok (some res) ∧
      2 ∈ res.graph.visible ∧ (res.graph.node 2).state = .omittedForConflict ∧
      (res.graph.node 2).kept = some 5 ∧ (res.graph.node 5).state = .included ∧
      (res.graph.node 5).kept = none ∧
      res.graph.label (res.graph.node 2) = "(g:b:jar:1:compile - omitted for conflict with 3)" ∧
      ("(g:b:jar:1:compile - omitted for conflict with 3)" : Text) <:+: res.graph.render := by
  obtain ⟨res, h⟩ := finishes_iff.mp
    (show (ofPolicy .newest).finishes 5 climbing climb = true by decide +kernel)
  obtain ⟨hres, -, -⟩ := reaches_of_resolve h
  have hlost : 2 ∈ res.graph.visible ∧ (res.graph.node 2).state = .omittedForConflict := by
    rw [hres]
    decide +kernel
  have hwon : (res.graph.node 5).state = .included ∧ 5 ∈ res.graph.included ∧
      (res.graph.node 5).key = (res.graph.node 2).key ∧
      (res.graph.node 5).version = some ⟨"3"⟩ := by
    rw [hres]
    decide +kernel
  have hline : Graph.isDuplicate (res.graph.node 2) ⟨"3"⟩ = false ∧
      (res.graph.node 2).artifact.text = "g:b:jar:1:compile" := by
    rw [hres]
    decide +kernel
  obtain ⟨hlosers, hwinners⟩ := losers_point_at_winner h
  obtain ⟨w, v, hkept, hv, hw, ⟨branches, -, hprinted⟩, hlabel⟩ := hlosers 2 hlost.1 hlost.2
  obtain rfl : 5 = w := (hw 5).mp ⟨hwon.2.1, hwon.2.2.1⟩
  obtain rfl : v = ⟨"3"⟩ := Option.some.inj (hv.symm.trans hwon.2.2.2)
  have hnames : res.graph.label (res.graph.node 2) =
      "(g:b:jar:1:compile - omitted for conflict with 3)" := by
    rw [hlabel, hline.1, hline.2]
    rfl
  rw [hnames] at hprinted
  refine ⟨res, h, hlost.1, hlost.2, hkept, hwon.1, hwinners 5 hwon.1, hnames, ?_⟩
  exact .trans ⟨'\n' :: branches, ['\n'], rfl⟩ hprinted

end Resolver

end Mediation
