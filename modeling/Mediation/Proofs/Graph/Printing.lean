import Mathlib.Data.List.Flatten
import Mediation.Graph.Tree
import Mediation.Proofs.Graph.Search
import Mediation.Proofs.Graph.Visible

/-! # Printed lines

A printed tree is a heading and a list of lines, depth first. A walk through the children of
included nodes writes them, so each visible node but the root has one line, behind branches that
depend on its place only.
-/

namespace Mediation.Graph

variable {g : Graph} {a b c p n : ℕ} {margin : Text}

/-- A line below the heading: a node behind its branches. -/
structure Line where
  branches : Text
  node : NodeId

def Line.text (g : Graph) (l : Line) : Text := l.branches ++ g.label (g.node l.node) ++ "\n"

/-- The lines of `linesBelow`, one by one. -/
def linesUpTo (g : Graph) : ℕ → Text → NodeId → List Line
  | 0, _, _ => []
  | n + 1, margin, id =>
    (withLast (g.children id)).flatMap fun (child, isLast) =>
      ⟨margin ++ (if isLast then "\\- " else "+- "), child⟩ ::
        if g.isIncluded child then g.linesUpTo n (nested margin isLast) child else []

def lines (g : Graph) : List Line := g.linesUpTo g.size [] root

def printedUpTo (g : Graph) : ℕ → NodeId → List NodeId
  | 0, _ => []
  | n + 1, id =>
    (g.children id).flatMap fun child =>
      child :: if g.isIncluded child then g.printedUpTo n child else []

theorem map_fst_withLast {α : Type} (l : List α) : (withLast l).map Prod.fst = l := by
  induction l with
  | nil => rfl
  | cons x l ih =>
    cases l with
    | nil => rfl
    | cons y l => simpa [withLast] using ih

theorem linesBelow_eq (n : ℕ) (margin : Text) (id : NodeId) :
    g.linesBelow n margin id = (g.linesUpTo n margin id).flatMap (Line.text g) := by
  induction n generalizing margin id with
  | zero => rfl
  | succ n ih =>
    rw [linesBelow, linesUpTo, List.flatMap_assoc]
    refine List.flatMap_congr fun x _ => ?_
    obtain ⟨child, isLast⟩ := x
    cases h : g.isIncluded child <;> simp [Line.text, h, ih]

theorem nodes_linesUpTo (n : ℕ) (margin : Text) (id : NodeId) :
    (g.linesUpTo n margin id).map Line.node = g.printedUpTo n id := by
  induction n generalizing margin id with
  | zero => rfl
  | succ n ih =>
    have hchildren : g.printedUpTo (n + 1) id = (withLast (g.children id)).flatMap fun x =>
        x.1 :: if g.isIncluded x.1 then g.printedUpTo n x.1 else [] := by
      rw [printedUpTo]
      conv_lhs => rw [← map_fst_withLast (g.children id), List.flatMap_map]
    rw [hchildren, linesUpTo, List.map_flatMap]
    refine List.flatMap_congr fun x _ => ?_
    obtain ⟨child, isLast⟩ := x
    cases h : g.isIncluded child <;> simp [h, ih]

theorem not_mem_branches (hmargin : '\n' ∉ margin) {l : Line}
    (hl : l ∈ g.linesUpTo n margin a) : '\n' ∉ l.branches := by
  induction n generalizing margin a with
  | zero => cases hl
  | succ n ih =>
    obtain ⟨⟨child, isLast⟩, -, hl⟩ := List.mem_flatMap.mp hl
    rcases List.mem_cons.mp hl with rfl | hl
    · cases isLast <;> simp [hmargin]
    · split at hl
      · exact ih (by cases isLast <;> simp [nested, hmargin]) hl
      · cases hl

theorem mem_printedUpTo_succ : c ∈ g.printedUpTo (n + 1) a ↔
    ∃ b ∈ g.children a, c = b ∨ g.isIncluded b = true ∧ c ∈ g.printedUpTo n b := by
  simp [printedUpTo, List.mem_flatMap]

theorem printedUpTo_sublist (n : ℕ) (a : NodeId) :
    (g.printedUpTo n a).Sublist (g.descendantsUpTo n a) := by
  induction n generalizing a with
  | zero => exact .slnil
  | succ n ih =>
    refine List.Sublist.flatMap_right _ fun b _ => .cons_cons b ?_
    split
    · exact ih b
    · exact List.nil_sublist _

namespace IsTree

theorem mem_printedUpTo_of_child (t : g.IsTree) (hn : g.size ≤ a + n)
    (hp : p = a ∨ g.isIncluded p = true ∧ p ∈ g.printedUpTo n a) (hc : c ∈ g.children p) :
    c ∈ g.printedUpTo n a := by
  induction n generalizing a with
  | zero =>
    have hlt := t.lt_of_child hc
    have hsize := (t.child p c hc).1
    rcases hp with rfl | ⟨-, hp⟩
    · omega
    · cases hp
  | succ n ih =>
    rcases hp with rfl | ⟨hi, hp⟩
    · exact mem_printedUpTo_succ.mpr ⟨c, hc, .inl rfl⟩
    · obtain ⟨b, hb, hp⟩ := mem_printedUpTo_succ.mp hp
      have hlt := t.lt_of_child hb
      have hib : g.isIncluded b = true := hp.elim (fun he => he ▸ hi) And.left
      have hpb : p = b ∨ g.isIncluded p = true ∧ p ∈ g.printedUpTo n b :=
        hp.imp_right fun h => ⟨hi, h.2⟩
      exact mem_printedUpTo_succ.mpr ⟨b, hb, .inr ⟨hib, ih (by omega) hpb⟩⟩

theorem visible_of_mem_printedUpTo (t : g.IsTree) (hr : g.isIncluded root = true)
    (ha : a ∈ g.visible) (hi : g.isIncluded a = true) (hc : c ∈ g.printedUpTo n a) :
    c ∈ g.visible := by
  induction n generalizing a with
  | zero => cases hc
  | succ n ih =>
    obtain ⟨b, hb, hc⟩ := mem_printedUpTo_succ.mp hc
    have hbv : b ∈ g.visible := (t.mem_visible_iff hr).mpr (.inr ⟨a, ha, hi, hb⟩)
    rcases hc with rfl | ⟨hib, hc⟩
    · exact hbv
    · exact ih hbv hib hc

/-- A node has a line if and only if it is visible and not the root. -/
theorem mem_printed_iff (t : g.IsTree) (hr : g.isIncluded root = true) :
    c ∈ g.printedUpTo g.size root ↔ c ∈ g.visible ∧ c ≠ root := by
  constructor
  · intro hc
    have hlt := t.lt_of_mem_descendants ((printedUpTo_sublist _ _).subset hc)
    exact ⟨t.visible_of_mem_printedUpTo hr ((t.mem_visible_iff hr).mpr (.inl rfl)) hr hc,
      hlt.ne'⟩
  · -- Ids grow along branches, so the induction is on the id.
    induction c using Nat.strong_induction_on with
    | _ c ih =>
      rintro ⟨hv, hne⟩
      obtain ⟨p, hp, hi, hc⟩ := ((t.mem_visible_iff hr).mp hv).resolve_left hne
      refine t.mem_printedUpTo_of_child (Nat.le_add_left _ _) ?_ hc
      by_cases hpr : p = root
      · exact .inl hpr
      · exact .inr ⟨hi, ih p (t.lt_of_child hc) ⟨hp, hpr⟩⟩

/-- The heading and the lines are those of the visible nodes, one for each. -/
theorem nodes_lines_perm_visible (t : g.IsTree) (hr : g.isIncluded root = true) :
    (root :: g.lines.map Line.node).Perm g.visible := by
  rw [lines, nodes_linesUpTo]
  have hnodup : (root :: g.printedUpTo g.size root).Nodup := by
    refine List.nodup_cons.mpr ⟨fun h => ((t.mem_printed_iff hr).mp h).2 rfl, ?_⟩
    exact (t.nodup_descendants root).sublist (printedUpTo_sublist _ _)
  refine (List.perm_ext_iff_of_nodup hnodup t.nodup_visible).mpr fun c => ?_
  rw [List.mem_cons, t.mem_printed_iff hr]
  constructor
  · rintro (rfl | ⟨hv, -⟩)
    · exact (t.mem_visible_iff hr).mpr (.inl rfl)
    · exact hv
  · intro hv
    by_cases hc : c = root
    · exact .inl hc
    · exact .inr ⟨hv, hc⟩

end IsTree

def heading (g : Graph) : Text :=
  (g.node root).artifact.coordinate.text ++ ((g.node root).version.elim [] fun v => ':' :: v.text)

theorem render_eq (g : Graph) : g.render = g.heading ++ "\n" ++ g.lines.flatMap (Line.text g) :=
  congrArg (g.heading ++ "\n" ++ ·) (linesBelow_eq ..)

/-- A line break stands before each line, as the heading and the lines before it end in one. -/
theorem suffix_flatMap_text (g : Graph) (ls : List Line) :
    ['\n'] <:+ '\n' :: ls.flatMap (Line.text g) := by
  rcases ls.eq_nil_or_concat with rfl | ⟨ls, l, rfl⟩
  · simp
  · exact ⟨'\n' :: ls.flatMap (Line.text g) ++ (l.branches ++ g.label (g.node l.node)),
      by simp [Line.text]⟩

/-- Every visible node but the root is printed, on a line that has only branches before it. -/
theorem IsTree.label_infix_render (t : g.IsTree) (hr : g.isIncluded root = true)
    (hv : c ∈ g.visible) (hc : c ≠ root) :
    ∃ branches : Text, '\n' ∉ branches ∧
      '\n' :: branches ++ g.label (g.node c) ++ ['\n'] <:+: g.render := by
  have hnode : c ∈ g.lines.map Line.node := by
    rw [lines, nodes_linesUpTo]
    exact (t.mem_printed_iff hr).mpr ⟨hv, hc⟩
  obtain ⟨l, hl, rfl⟩ := List.mem_map.mp hnode
  refine ⟨l.branches, not_mem_branches List.not_mem_nil hl, ?_⟩
  obtain ⟨before, after, hlines⟩ := List.append_of_mem hl
  obtain ⟨start, hstart⟩ := suffix_flatMap_text g before
  refine ⟨g.heading ++ start, after.flatMap (Line.text g), ?_⟩
  have hrender : g.render = g.heading ++ ('\n' :: before.flatMap (Line.text g)) ++ l.text g ++
      after.flatMap (Line.text g) := by
    simp [render_eq, hlines]
  rw [hrender, ← hstart]
  simp [Line.text]

end Mediation.Graph
