import Mathlib.Algebra.GroupWithZero.Nat
import PassVault.Core.Model

/-!
# Revision graphs

The definitions of `packages/core/src/dag.ts`. A JavaScript `Map` or `Set` iterates in insertion
order, so a graph is the list of its nodes in that order with distinct ids, and a set is a list
without repetition. The `while` loops of the source recurse on a step budget that the graph
gives; `DagWalk` shows that the walks finish within it.
-/

namespace PassVault

structure RevisionNode where
  id : RevisionId
  parentIds : List RevisionId
deriving DecidableEq, Repr

/-- `byId.set(node.id, node)`: a known id keeps its place and takes the new node. -/
def setNode : List RevisionNode → RevisionNode → List RevisionNode
  | [], node => [node]
  | m :: rest, node => if m.id = node.id then node :: rest else m :: setNode rest node

theorem setNode_ids (nodes : List RevisionNode) (node : RevisionNode) :
    (setNode nodes node).map (·.id) =
      if node.id ∈ nodes.map (·.id) then nodes.map (·.id) else nodes.map (·.id) ++ [node.id] := by
  induction nodes with
  | nil => simp [setNode]
  | cons m rest ih =>
    by_cases h : m.id = node.id
    · simp [setNode, h]
    · have h' : ¬ node.id = m.id := fun e => h e.symm
      simp only [setNode, if_neg h, List.map_cons, ih, List.mem_cons, h', false_or]
      split <;> simp

theorem nodup_snoc {α : Type} {l : List α} (h : l.Nodup) {x : α} (hx : x ∉ l) :
    (l ++ [x]).Nodup :=
  List.nodup_append.mpr ⟨h, by simp, fun _ hy _ hz hyz =>
    hx (List.mem_singleton.mp hz ▸ hyz ▸ hy)⟩

theorem setNode_nodup {nodes : List RevisionNode} (h : (nodes.map (·.id)).Nodup)
    (node : RevisionNode) : ((setNode nodes node).map (·.id)).Nodup := by
  rw [setNode_ids]
  split
  · exact h
  · rename_i hnot
    exact nodup_snoc h hnot

/-- An in-memory projection of a revision DAG. -/
structure RevisionGraph where
  nodes : List RevisionNode
  distinct : (nodes.map (·.id)).Nodup

namespace RevisionGraph

def get (graph : RevisionGraph) (id : RevisionId) : Option RevisionNode :=
  graph.nodes.find? (·.id = id)

def has (graph : RevisionGraph) (id : RevisionId) : Bool := (graph.get id).isSome

def ids (graph : RevisionGraph) : List RevisionId := graph.nodes.map (·.id)

end RevisionGraph

def buildGraph (nodes : List RevisionNode) : RevisionGraph where
  nodes := nodes.foldl setNode []
  distinct := by
    have h : ∀ (nodes acc : List RevisionNode), (acc.map (·.id)).Nodup →
        ((nodes.foldl setNode acc).map (·.id)).Nodup := by
      intro nodes
      induction nodes with
      | nil => exact fun acc h => h
      | cons node rest ih => exact fun acc h => ih _ (setNode_nodup h node)
    exact h nodes [] List.nodup_nil

/-- Union of two graphs. Nodes in `overlay` win on id collision. -/
def unionGraphs (base overlay : RevisionGraph) : RevisionGraph :=
  buildGraph (base.ids.filterMap base.get ++ overlay.ids.filterMap overlay.get)

/-! ## Ancestry walks -/

/-- The stack after `queue.push` of each parent not yet seen; its top is the last one pushed. -/
def pushUnseen (seen parentIds queue : List RevisionId) : List RevisionId :=
  (parentIds.filter (· ∉ seen)).reverse ++ queue

/-- Parent edges of a graph, which bound how often a walk pushes. -/
def edgeCount (graph : RevisionGraph) : Nat := (graph.nodes.map (·.parentIds.length)).sum

def ancestorsLoop (graph : RevisionGraph) : Nat → List RevisionId → List RevisionId →
    List RevisionId
  | 0, seen, _ => seen
  | _ + 1, seen, [] => seen
  | budget + 1, seen, current :: queue =>
    if current ∈ seen then ancestorsLoop graph budget seen queue
    else
      match graph.get current with
      | none => ancestorsLoop graph budget (seen ++ [current]) queue
      | some node =>
        ancestorsLoop graph budget (seen ++ [current])
          (pushUnseen (seen ++ [current]) node.parentIds queue)

/-- All ancestors of `id`, inclusive of `id` itself. -/
def ancestorsOf (graph : RevisionGraph) (id : RevisionId) : List RevisionId :=
  ancestorsLoop graph (edgeCount graph + 2) [] [id]

def isAncestorLoop (graph : RevisionGraph) (ancestor : RevisionId) : Nat → List RevisionId →
    List RevisionId → Bool
  | 0, _, _ => false
  | _ + 1, _, [] => false
  | budget + 1, seen, current :: queue =>
    if current ∈ seen then isAncestorLoop graph ancestor budget seen queue
    else
      match graph.get current with
      | none => isAncestorLoop graph ancestor budget (seen ++ [current]) queue
      | some node =>
        if ancestor ∈ node.parentIds then true
        else
          isAncestorLoop graph ancestor budget (seen ++ [current])
            (pushUnseen (seen ++ [current]) node.parentIds queue)

/-- True when `ancestor` is reachable from `descendant` by walking parents. Reflexive. -/
def isAncestor (graph : RevisionGraph) (ancestor descendant : RevisionId) : Bool :=
  if ancestor = descendant then true
  else isAncestorLoop graph ancestor (edgeCount graph + 2) [] [descendant]

/-! ## Merge bases and divergence -/

/-- Everything reachable from a parent of one of the `common` ancestors. -/
def dominatedBy (graph : RevisionGraph) (common : List RevisionId) : List RevisionId :=
  common.flatMap fun candidate =>
    match graph.get candidate with
    | none => []
    | some node => node.parentIds.flatMap (ancestorsOf graph)

/-- The best common ancestors of `a` and `b`. -/
def findMergeBase (graph : RevisionGraph) (a b : RevisionId) : List RevisionId :=
  let ancestorsB := ancestorsOf graph b
  let common := (ancestorsOf graph a).filter (· ∈ ancestorsB)
  if common.isEmpty then []
  else
    let dominated := dominatedBy graph common
    common.filter (· ∉ dominated)

inductive Divergence where
  | equal
  /-- The remote head is an ancestor of ours. -/
  | localAhead
  /-- Our head is an ancestor of theirs. -/
  | remoteAhead
  /-- Neither contains the other. -/
  | diverged (mergeBases : List RevisionId)
  /-- No shared history whatsoever. -/
  | unrelated
deriving DecidableEq, Repr

/-- Classify two heads against a graph that must contain both sides' history. -/
def classifyDivergence (graph : RevisionGraph) (localHead remoteHead : RevisionId) : Divergence :=
  if localHead = remoteHead then .equal
  else if isAncestor graph remoteHead localHead then .localAhead
  else if isAncestor graph localHead remoteHead then .remoteAhead
  else
    let mergeBases := findMergeBase graph localHead remoteHead
    if mergeBases.length = 0 then .unrelated else .diverged mergeBases

/-! ## Topological order -/

structure Frame where
  id : RevisionId
  expanded : Bool
deriving DecidableEq, Repr

/-- The variables of `topologicalOrder`; the top of the stack is its head. -/
structure TopologicalState where
  stack : List Frame
  onStack : List RevisionId
  done : List RevisionId
  ordered : List RevisionId
deriving DecidableEq, Repr

/-- The `for` loop that pushes the parents of an expanded frame. -/
def pushParents (target onStack done : List RevisionId) : List RevisionId → List Frame →
    Except Failure (List Frame)
  | [], stack => .ok stack
  | parentId :: rest, stack =>
    if parentId ∉ target ∨ parentId ∈ done then pushParents target onStack done rest stack
    else do
      assert (parentId ∉ onStack) ("revision graph contains a cycle at " ++ parentId.value)
      pushParents target onStack done rest (⟨parentId, false⟩ :: stack)

/-- One turn of the `while` loop, on the frame at the top of the stack. -/
def topologicalStep (graph : RevisionGraph) (target : List RevisionId) (frame : Frame)
    (rest : List Frame) (s : TopologicalState) : Except Failure TopologicalState :=
  if frame.id ∈ s.done then
    .ok { s with stack := rest, onStack := s.onStack.filter (· ≠ frame.id) }
  else if frame.expanded then
    .ok { stack := rest, onStack := s.onStack.filter (· ≠ frame.id)
          done := s.done ++ [frame.id], ordered := s.ordered ++ [frame.id] }
  else
    let onStack := frame.id :: s.onStack
    let stack := ⟨frame.id, true⟩ :: rest
    match graph.get frame.id with
    | none => .ok { s with stack, onStack }
    | some node => do
      let stack ← pushParents target onStack s.done node.parentIds stack
      .ok { s with stack, onStack }

def topologicalLoop (graph : RevisionGraph) (target : List RevisionId) : Nat →
    TopologicalState → Except Failure TopologicalState
  | 0, _ => .error (.error "topologicalOrder did not finish")
  | budget + 1, s =>
    match s.stack with
    | [] => .ok s
    | frame :: rest => do
      let s ← topologicalStep graph target frame rest s
      topologicalLoop graph target budget s

/-- Turns of the `while` loop for one start: a frame is pushed, expanded and popped once for
every parent edge and for the start itself. -/
def topologicalBudget (graph : RevisionGraph) : Nat := 2 * edgeCount graph + 4

/-- The `for` loop over the starts. -/
def topologicalStarts (graph : RevisionGraph) (target : List RevisionId) : List RevisionId →
    TopologicalState → Except Failure TopologicalState
  | [], s => .ok s
  | start :: rest, s =>
    if start ∈ s.done then topologicalStarts graph target rest s
    else do
      let s ← topologicalLoop graph target (topologicalBudget graph)
        { s with stack := [⟨start, false⟩] }
      topologicalStarts graph target rest s

/-- `new Set(ids)`. -/
def setOf (ids : List RevisionId) : List RevisionId :=
  ids.foldl (fun seen id => if id ∈ seen then seen else seen ++ [id]) []

/-- Order `ids` so that every parent appears before its children. Throws on a cycle. -/
def topologicalOrder (graph : RevisionGraph) (ids : List RevisionId) :
    Except Failure (List RevisionId) := do
  let target := setOf ids
  let s ← topologicalStarts graph target target ⟨[], [], [], []⟩
  return s.ordered

/-- Which revisions behind `remoteHead` we do not already hold, parents first. -/
def missingRevisions (remoteGraph : RevisionGraph) (remoteHead : RevisionId)
    (hasLocally : RevisionId → Bool) : Except Failure (List RevisionId) :=
  let wanted := (ancestorsOf remoteGraph remoteHead).filter
    fun id => !hasLocally id && remoteGraph.has id
  topologicalOrder remoteGraph wanted

/-- The first loop of `validateRemoteGraph`. -/
def checkDistinct : List RevisionNode → List RevisionId → Except Failure (List RevisionId)
  | [], seen => .ok seen
  | node :: rest, seen => do
    assert (node.id ∉ seen) ("history summary repeats revision " ++ node.id.value)
    checkDistinct rest (seen ++ [node.id])

/-- Reject a peer's history summary before any of it reaches storage. -/
def validateRemoteGraph (nodes : List RevisionNode) : Except Failure Unit := do
  let seen ← checkDistinct nodes []
  let graph := buildGraph nodes
  let _ ← topologicalOrder graph seen
  return ()

end PassVault
