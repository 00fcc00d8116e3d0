import Mediation.Proofs.Graph.Site
import Mediation.Collection.Expansion
import Mediation.Collection.Conflict

/-! # What a change of a collection leaves alone

Most changes touch a few fields of a few nodes. Scopes and notes about winners decide
nothing, so two collections that agree in all else are as good as equal.
-/

namespace Mediation

namespace Collection

variable {s t u : Collection} {i j : ℕ} {f : Node → Node}

theorem children_eq (s : Collection) (i : NodeId) :
    s.graph.children i = (s.node i).children := Graph.children_eq _ _

theorem isIncluded_iff : s.graph.isIncluded i = true ↔ (s.node i).state = .included :=
  Graph.isIncluded_iff

theorem node_update (s : Collection) (i j : ℕ) (f : Node → Node) :
    (s.update i f).node j = if i = j ∧ i < s.graph.size then f (s.node j) else s.node j :=
  Graph.node_update _ _ _ _

theorem node_update_self (h : i < s.graph.size) : (s.update i f).node i = f (s.node i) :=
  Graph.node_update_self h f

theorem node_update_of_ne (h : i ≠ j) : (s.update i f).node j = s.node j :=
  Graph.node_update_of_ne _ h f

@[simp] theorem contenders_update (s : Collection) (i : NodeId) (f : Node → Node) :
    (s.update i f).contenders = s.contenders := rfl

@[simp] theorem requeue_update (s : Collection) (i : NodeId) (f : Node → Node) :
    (s.update i f).requeue = s.requeue := rfl

@[simp] theorem node_emit (s : Collection) (e : Event) (i : NodeId) :
    (s.emit e).node i = s.node i := rfl

/-- A change of one node shows in no view that it does not touch. -/
theorem view_update {α : Type} (v : Node → α) (hv : ∀ n, v (f n) = v n) (s : Collection)
    (i j : ℕ) : v ((s.update i f).node j) = v (s.node j) := by
  rw [node_update]
  split
  · exact hv _
  · rfl

section Fold

variable (is : List NodeId) (s : Collection)

@[simp] theorem size_foldl_update :
    (is.foldl (fun s i => s.update i f) s).graph.size = s.graph.size := by
  induction is generalizing s with
  | nil => rfl
  | cons i is ih => rw [List.foldl_cons, ih, graph_update, Graph.size_update]

@[simp] theorem contenders_foldl_update :
    (is.foldl (fun s i => s.update i f) s).contenders = s.contenders := by
  induction is generalizing s with
  | nil => rfl
  | cons i is ih => rw [List.foldl_cons, ih, contenders_update]

@[simp] theorem requeue_foldl_update :
    (is.foldl (fun s i => s.update i f) s).requeue = s.requeue := by
  induction is generalizing s with
  | nil => rfl
  | cons i is ih => rw [List.foldl_cons, ih, requeue_update]

theorem view_foldl_update {α : Type} (v : Node → α) (hv : ∀ n, v (f n) = v n) (j : ℕ) :
    v ((is.foldl (fun s i => s.update i f) s).node j) = v (s.node j) := by
  induction is generalizing s with
  | nil => rfl
  | cons i is ih => rw [List.foldl_cons, ih, view_update v hv]

/-- A change that is not felt a second time reaches every node of the list. -/
theorem node_foldl_update (hf : ∀ n, f (f n) = f n) (j : ℕ) :
    (is.foldl (fun s i => s.update i f) s).node j =
      if j ∈ is ∧ j < s.graph.size then f (s.node j) else s.node j := by
  induction is generalizing s with
  | nil => simp
  | cons i is ih =>
    rw [List.foldl_cons, ih, graph_update, Graph.size_update, node_update]
    by_cases hj : j < s.graph.size
    · by_cases hi : i = j
      · subst hi
        by_cases hm : i ∈ is <;> simp [hj, hm, hf]
      · have hji : j ≠ i := fun h => hi h.symm
        by_cases hm : j ∈ is <;> simp [hj, hi, hji, hm]
    · have hn : ¬ (i = j ∧ i < s.graph.size) := by
        rintro ⟨rfl, h⟩
        exact hj h
      simp [hj, hn]

end Fold

/-- Two collections that differ at most in scopes, notes about winners, events, problems and
in what is to be expanded once more. -/
structure Agrees (s t : Collection) : Prop where
  size : t.graph.size = s.graph.size
  contenders : t.contenders = s.contenders
  core : ∀ i, (t.node i).core = (s.node i).core

namespace Agrees

theorem refl (s : Collection) : s.Agrees s := ⟨rfl, rfl, fun _ => rfl⟩

theorem symm (h : s.Agrees t) : t.Agrees s :=
  ⟨h.size.symm, h.contenders.symm, fun i => (h.core i).symm⟩

theorem trans (h : s.Agrees t) (h' : t.Agrees u) : s.Agrees u :=
  ⟨h'.size.trans h.size, h'.contenders.trans h.contenders,
    fun i => (h'.core i).trans (h.core i)⟩

theorem update (hf : ∀ n, (f n).core = n.core) (s : Collection) (i : ℕ) :
    s.Agrees (s.update i f) :=
  ⟨Graph.size_update _ _ _, rfl, view_update Node.core hf s i⟩

theorem foldl {α : Type} {step : Collection → α → Collection}
    (hs : ∀ (s : Collection) (a : α), s.Agrees (step s a)) (as : List α) (s : Collection) :
    s.Agrees (as.foldl step s) := by
  induction as generalizing s with
  | nil => exact refl s
  | cons a as ih => exact (hs s a).trans (ih _)

theorem emit (s : Collection) (e : Event) : s.Agrees (s.emit e) := ⟨rfl, rfl, fun _ => rfl⟩

theorem report (s : Collection) (i : NodeId) (e : NodeError) : s.Agrees (s.report i e) :=
  ⟨rfl, rfl, fun _ => rfl⟩

theorem enqueue (s : Collection) (i : NodeId) : s.Agrees (s.enqueue i) := by
  unfold Collection.enqueue
  split
  · exact refl s
  · exact ⟨rfl, rfl, fun _ => rfl⟩

section View

variable (h : s.Agrees t) (i : NodeId)
include h

theorem site : (t.node i).site = (s.node i).site := Node.site_of_core (h.core i)

theorem key : (t.node i).key = (s.node i).key := Node.key_of_site (h.site i)

theorem parent : (t.node i).parent = (s.node i).parent := (congrArg Node.parent (h.core i) :)

theorem children : (t.node i).children = (s.node i).children :=
  (congrArg Node.children (h.core i) :)

theorem state : (t.node i).state = (s.node i).state := (congrArg Node.state (h.core i) :)

theorem constraint : (t.node i).constraint = (s.node i).constraint :=
  (congrArg Node.constraint (h.core i) :)

theorem expanded : (t.node i).expanded = (s.node i).expanded :=
  (congrArg Node.expanded (h.core i) :)

theorem version : (t.node i).version = (s.node i).version := (congrArg Node.version (h.core i) :)

theorem isIncluded : t.graph.isIncluded i = s.graph.isIncluded i :=
  (congrArg Node.isIncluded (h.core i) :)

theorem descendants : t.graph.descendants i = s.graph.descendants i :=
  Graph.descendants_congr h.size (fun j => by
    rw [Collection.children_eq, Collection.children_eq, h.children]) i

end View

end Agrees

theorem agrees_redirect (s : Collection) (k : Key) (old new : NodeId) :
    s.Agrees (s.redirect k old new) :=
  .foldl (fun s i => by apply Agrees.update; intro _; rfl) _ s

theorem agrees_rescope (s : Collection) (i : NodeId) : s.Agrees (s.rescope i) := by
  unfold rescope
  dsimp only
  cases hs : (do
    let parent ← (s.node i).parent
    (s.node parent).artifact.scope.inherit (s.node i).declaredScope) with
  | none => exact .refl s
  | some scope =>
    apply Agrees.update
    intro _; rfl

theorem agrees_widenScope (s : Collection) (winner loser : NodeId) :
    s.Agrees (s.widenScope winner loser) := by
  unfold widenScope
  dsimp only
  split
  · exact .refl s
  · split
    · exact .emit s _
    · have he := Agrees.emit s
        (.scopeWidened (s.node winner).artifact (s.node loser).artifact.scope)
      refine (he.trans ?_).trans (.foldl agrees_rescope _ _)
      apply Agrees.update
      intro _; rfl

end Collection

end Mediation
