import PassVault.Core.DagWalk
import PassVault.Lib.Loop

/-!
# The ancestry walks as loops

The `while` loops of `ancestorsOf` and `isAncestor` round by round, without a budget. Every round
lowers the number of queued ids and unseen edges, so both loops stop, and what they return is
what the definitions of `Dag` compute.
-/

namespace PassVault

open Relation

/-- The variables of a walk between two rounds. -/
structure Walk where
  seen : List RevisionId
  queue : List RevisionId

/-- Queued ids and the parent edges that can still be queued. -/
def Walk.pending (graph : RevisionGraph) (walk : Walk) : Nat :=
  walk.queue.length + unseenEdges graph.nodes walk.seen

/-- One round of the loop of `ancestorsOf`. -/
def ancestorsRound (graph : RevisionGraph) : Walk → Walk ⊕ List RevisionId
  | ⟨seen, []⟩ => .inr seen
  | ⟨seen, current :: queue⟩ =>
    if current ∈ seen then .inl ⟨seen, queue⟩
    else
      match graph.get current with
      | none => .inl ⟨seen ++ [current], queue⟩
      | some node =>
        .inl ⟨seen ++ [current], pushUnseen (seen ++ [current]) node.parentIds queue⟩

/-- One round of the loop of `isAncestor`. -/
def isAncestorRound (graph : RevisionGraph) (ancestor : RevisionId) : Walk → Walk ⊕ Bool
  | ⟨_, []⟩ => .inr false
  | ⟨seen, current :: queue⟩ =>
    if current ∈ seen then .inl ⟨seen, queue⟩
    else
      match graph.get current with
      | none => .inl ⟨seen ++ [current], queue⟩
      | some node =>
        if ancestor ∈ node.parentIds then .inr true
        else .inl ⟨seen ++ [current], pushUnseen (seen ++ [current]) node.parentIds queue⟩

/-- A call of `ancestorsOf` ends and returns `result`. -/
def AncestorsOfReturns (graph : RevisionGraph) (id : RevisionId) (result : List RevisionId) : Prop :=
  Loop.Returns (ancestorsRound graph) ⟨[], [id]⟩ result

/-- A call of `isAncestor` ends and returns `result`; equal ids return before the loop. -/
def IsAncestorReturns (graph : RevisionGraph) (ancestor descendant : RevisionId) (result : Bool) :
    Prop :=
  if ancestor = descendant then result = true
  else Loop.Returns (isAncestorRound graph ancestor) ⟨[], [descendant]⟩ result

/-- A round takes an id off the queue, and queues the parents of a node only when it first sees
that node. -/
inductive Walk.Advances (graph : RevisionGraph) : Walk → Walk → Prop where
  | skip {seen queue : List RevisionId} {current : RevisionId} :
      Advances graph ⟨seen, current :: queue⟩ ⟨seen, queue⟩
  | frontier {seen queue : List RevisionId} {current : RevisionId} :
      Advances graph ⟨seen, current :: queue⟩ ⟨seen ++ [current], queue⟩
  | visit {seen queue : List RevisionId} {current : RevisionId} {node : RevisionNode}
      (hseen : current ∉ seen) (hget : graph.get current = some node) :
      Advances graph ⟨seen, current :: queue⟩
        ⟨seen ++ [current], pushUnseen (seen ++ [current]) node.parentIds queue⟩

theorem Walk.Advances.lowers {graph : RevisionGraph} {walk walk' : Walk}
    (h : walk.Advances graph walk') : walk'.pending graph < walk.pending graph := by
  cases h with
  | skip => simp [pending]
  | @frontier seen queue current =>
    have hmono := unseenEdges_mono graph.nodes seen current
    simp only [pending, List.length_cons]
    omega
  | @visit seen queue current node hseen hget =>
    have hedges := unseenEdges_get hget hseen
    have hlength := pushUnseen_length (seen ++ [current]) node.parentIds queue
    simp only [pending, List.length_cons]
    omega

theorem ancestorsRound_advances {graph : RevisionGraph} {walk walk' : Walk}
    (h : ancestorsRound graph walk = .inl walk') : walk.Advances graph walk' := by
  obtain ⟨seen, queue⟩ := walk
  cases queue with
  | nil => cases h
  | cons current queue =>
    rw [ancestorsRound] at h
    by_cases hseen : current ∈ seen
    · rw [if_pos hseen] at h
      cases h
      exact .skip
    · rw [if_neg hseen] at h
      cases hget : graph.get current with
      | none =>
        simp only [hget] at h
        cases h
        exact .frontier
      | some node =>
        simp only [hget] at h
        cases h
        exact .visit hseen hget

theorem isAncestorRound_advances {graph : RevisionGraph} {ancestor : RevisionId}
    {walk walk' : Walk} (h : isAncestorRound graph ancestor walk = .inl walk') :
    walk.Advances graph walk' := by
  obtain ⟨seen, queue⟩ := walk
  cases queue with
  | nil => cases h
  | cons current queue =>
    rw [isAncestorRound] at h
    by_cases hseen : current ∈ seen
    · rw [if_pos hseen] at h
      cases h
      exact .skip
    · rw [if_neg hseen] at h
      cases hget : graph.get current with
      | none =>
        simp only [hget] at h
        cases h
        exact .frontier
      | some node =>
        simp only [hget] at h
        by_cases hparent : ancestor ∈ node.parentIds
        · rw [if_pos hparent] at h
          cases h
        · rw [if_neg hparent] at h
          cases h
          exact .visit hseen hget

theorem ancestorsLoop_succ (graph : RevisionGraph) (budget : Nat) (walk : Walk) :
    ancestorsLoop graph (budget + 1) walk.seen walk.queue =
      match ancestorsRound graph walk with
      | .inr result => result
      | .inl next => ancestorsLoop graph budget next.seen next.queue := by
  obtain ⟨seen, queue⟩ := walk
  cases queue with
  | nil => rfl
  | cons current queue =>
    simp only [ancestorsLoop, ancestorsRound]
    by_cases hseen : current ∈ seen
    · simp only [if_pos hseen]
    · simp only [if_neg hseen]
      cases graph.get current <;> rfl

theorem isAncestorLoop_succ (graph : RevisionGraph) (ancestor : RevisionId) (budget : Nat)
    (walk : Walk) :
    isAncestorLoop graph ancestor (budget + 1) walk.seen walk.queue =
      match isAncestorRound graph ancestor walk with
      | .inr result => result
      | .inl next => isAncestorLoop graph ancestor budget next.seen next.queue := by
  obtain ⟨seen, queue⟩ := walk
  cases queue with
  | nil => rfl
  | cons current queue =>
    simp only [isAncestorLoop, isAncestorRound]
    by_cases hseen : current ∈ seen
    · simp only [if_pos hseen]
    · simp only [if_neg hseen]
      cases graph.get current with
      | none => rfl
      | some node => by_cases hparent : ancestor ∈ node.parentIds <;> simp [hparent]

theorem pending_start (graph : RevisionGraph) (id : RevisionId) :
    Walk.pending graph ⟨[], [id]⟩ < edgeCount graph + 2 := by
  simp only [Walk.pending, unseenEdges_nil, List.length_singleton]
  omega

theorem ancestorsOf_returns (graph : RevisionGraph) (id : RevisionId) :
    AncestorsOfReturns graph id (ancestorsOf graph id) := by
  apply Loop.Returns.of_budget
    (f := fun budget (walk : Walk) => ancestorsLoop graph budget walk.seen walk.queue)
    (m := Walk.pending graph) _ _ _ (pending_start graph id)
  · intro budget walk result h
    simp only [ancestorsLoop_succ, h]
  · intro budget walk walk' h
    simp only [ancestorsLoop_succ, h]
  · intro walk walk' h
    exact (ancestorsRound_advances h).lowers

theorem isAncestor_returns (graph : RevisionGraph) (ancestor descendant : RevisionId) :
    IsAncestorReturns graph ancestor descendant (isAncestor graph ancestor descendant) := by
  rw [IsAncestorReturns, isAncestor]
  by_cases heq : ancestor = descendant
  · simp [heq]
  · rw [if_neg heq, if_neg heq]
    apply Loop.Returns.of_budget
      (f := fun budget (walk : Walk) => isAncestorLoop graph ancestor budget walk.seen walk.queue)
      (m := Walk.pending graph) _ _ _ (pending_start graph descendant)
    · intro budget walk result h
      simp only [isAncestorLoop_succ, h]
    · intro budget walk walk' h
      simp only [isAncestorLoop_succ, h]
    · intro walk walk' h
      exact (isAncestorRound_advances h).lowers

theorem AncestorsOfReturns.unique {graph : RevisionGraph} {id : RevisionId}
    {result result' : List RevisionId} (h : AncestorsOfReturns graph id result)
    (h' : AncestorsOfReturns graph id result') : result = result' := Loop.Returns.unique h h'

theorem IsAncestorReturns.unique {graph : RevisionGraph} {ancestor descendant : RevisionId}
    {result result' : Bool} (h : IsAncestorReturns graph ancestor descendant result)
    (h' : IsAncestorReturns graph ancestor descendant result') : result = result' := by
  rw [IsAncestorReturns] at h h'
  by_cases heq : ancestor = descendant
  · rw [if_pos heq] at h h'
    rw [h, h']
  · rw [if_neg heq] at h h'
    exact Loop.Returns.unique h h'

/-- On every graph both walks end. The one lists, each once, the ids that parent steps through
defined nodes reach; the other says whether an id is among them. -/
theorem ancestry_walks_reach (graph : RevisionGraph) (a d : RevisionId) :
    (∃ ancestors, AncestorsOfReturns graph d ancestors ∧ ancestors.Nodup ∧
      (∀ x, x ∈ ancestors ↔ ReflTransGen (Parent graph) d x) ∧
      ∃ answer, IsAncestorReturns graph a d answer ∧ (answer = true ↔ a ∈ ancestors)) ∧
    (∀ result, AncestorsOfReturns graph d result ↔ result = ancestorsOf graph d) ∧
    ∀ result, IsAncestorReturns graph a d result ↔ result = isAncestor graph a d := by
  have hancestors := ancestorsOf_returns graph d
  have hanswer := isAncestor_returns graph a d
  constructor
  · exact ⟨_, hancestors, nodup_ancestorsOf graph d, fun x => mem_ancestorsOf, _, hanswer,
      isAncestor_iff_mem⟩
  · constructor
    · intro result
      constructor
      · intro h
        exact h.unique hancestors
      · intro h
        rw [h]
        exact hancestors
    · intro result
      constructor
      · intro h
        exact h.unique hanswer
      · intro h
        rw [h]
        exact hanswer

end PassVault
