import PassVault.Core.Dag
import PassVault.Lib.Ancestry

/-!
# The ancestry walks compute reachability

`ancestorsOf` and `isAncestor` walk a graph with a stack and a set of seen ids. Both finish
within their budget, because a push is paid for by a parent edge of a node that has just become
seen, and both compute reachability along `Parent`. With that, `findMergeBase` lists the best
common ancestors and `classifyDivergence` reads its verdict off the ancestry of the two heads.
-/

namespace PassVault

open Relation

/-! ## Graphs -/

/-- `graph` defines `child` with the parent `parent`. -/
def Parent (graph : RevisionGraph) (child parent : RevisionId) : Prop :=
  ∃ node, graph.get child = some node ∧ parent ∈ node.parentIds

namespace RevisionGraph

theorem get_id {graph : RevisionGraph} {id : RevisionId} {node : RevisionNode}
    (h : graph.get id = some node) : node.id = id := by
  simpa using List.find?_some h

theorem mem_of_get {graph : RevisionGraph} {id : RevisionId} {node : RevisionNode}
    (h : graph.get id = some node) : node ∈ graph.nodes := List.mem_of_find?_eq_some h

theorem find?_of_mem {nodes : List RevisionNode} (hdistinct : (nodes.map (·.id)).Nodup)
    {node : RevisionNode} (h : node ∈ nodes) : nodes.find? (·.id = node.id) = some node := by
  induction nodes with
  | nil => cases h
  | cons m rest ih =>
    obtain ⟨hm, hrest⟩ := List.nodup_cons.mp hdistinct
    rcases List.mem_cons.mp h with rfl | h
    · simp
    · have hne : m.id ≠ node.id := fun e => hm (List.mem_map.mpr ⟨node, h, e.symm⟩)
      rw [List.find?_cons_of_neg (by simpa using hne)]
      exact ih hrest h

theorem get_of_mem {graph : RevisionGraph} {node : RevisionNode} (h : node ∈ graph.nodes) :
    graph.get node.id = some node := find?_of_mem graph.distinct h

theorem has_iff {graph : RevisionGraph} {id : RevisionId} :
    graph.has id = true ↔ ∃ node, graph.get id = some node := Option.isSome_iff_exists

theorem mem_ids {graph : RevisionGraph} {id : RevisionId} :
    id ∈ graph.ids ↔ graph.has id = true := by
  rw [has_iff]
  constructor
  · intro h
    obtain ⟨node, hnode, rfl⟩ := List.mem_map.mp h
    exact ⟨node, get_of_mem hnode⟩
  · rintro ⟨node, h⟩
    exact List.mem_map.mpr ⟨node, mem_of_get h, get_id h⟩

end RevisionGraph

theorem find?_setNode (nodes : List RevisionNode) (node : RevisionNode) (id : RevisionId) :
    (setNode nodes node).find? (·.id = id) =
      if node.id = id then some node else nodes.find? (·.id = id) := by
  induction nodes with
  | nil => by_cases h : node.id = id <;> simp [setNode, h]
  | cons m rest ih =>
    by_cases hm : m.id = node.id
    · by_cases h : node.id = id
      · simp [setNode, hm, h]
      · simp [setNode, hm, h]
    · by_cases h : node.id = id
      · have hmid : ¬ m.id = id := fun e => hm (e.trans h.symm)
        rw [if_pos h] at ih
        simp [setNode, h, hmid, ih]
      · simp [setNode, hm, h, List.find?_cons, ih]

/-- A built graph defines an id by the last node that carries it. -/
theorem get_buildGraph (nodes : List RevisionNode) (id : RevisionId) :
    (buildGraph nodes).get id = nodes.reverse.find? (·.id = id) := by
  have h : ∀ (nodes acc : List RevisionNode), (nodes.foldl setNode acc).find? (·.id = id) =
      (nodes.reverse.find? (·.id = id)).or (acc.find? (·.id = id)) := by
    intro nodes
    induction nodes with
    | nil => intro acc; simp
    | cons node rest ih =>
      intro acc
      rw [List.foldl_cons, ih, find?_setNode, List.reverse_cons, List.find?_append]
      by_cases hid : node.id = id <;>
        cases List.find? (fun m => decide (m.id = id)) rest.reverse <;> simp [hid]
  exact (h nodes []).trans (by simp)

theorem get_buildGraph_of_nodup {nodes : List RevisionNode} (h : (nodes.map (·.id)).Nodup)
    (id : RevisionId) : (buildGraph nodes).get id = nodes.find? (·.id = id) := by
  rw [get_buildGraph]
  cases hfind : nodes.find? (·.id = id) with
  | none =>
    rw [List.find?_eq_none] at hfind ⊢
    exact fun node hnode => hfind node (List.mem_reverse.mp hnode)
  | some node =>
    have hid : node.id = id := by simpa using List.find?_some hfind
    subst hid
    refine RevisionGraph.find?_of_mem ?_ (List.mem_reverse.mpr (List.mem_of_find?_eq_some hfind))
    rw [List.map_reverse]
    exact List.nodup_reverse.mpr h

theorem filterMap_get (graph : RevisionGraph) : graph.ids.filterMap graph.get = graph.nodes := by
  have h : ∀ nodes : List RevisionNode, (∀ node ∈ nodes, graph.get node.id = some node) →
      (nodes.map (·.id)).filterMap graph.get = nodes := by
    intro nodes
    induction nodes with
    | nil => intro _; rfl
    | cons node rest ih =>
      intro hget
      rw [List.map_cons, List.filterMap_cons, hget node List.mem_cons_self]
      simp only [List.cons.injEq, true_and]
      exact ih fun m hm => hget m (List.mem_cons_of_mem _ hm)
  exact h graph.nodes fun node hnode => RevisionGraph.get_of_mem hnode

/-- The overlay's node wins; an id it does not define is read in the base. -/
theorem get_unionGraphs (base overlay : RevisionGraph) (id : RevisionId) :
    (unionGraphs base overlay).get id = (overlay.get id).or (base.get id) := by
  rw [unionGraphs, get_buildGraph, filterMap_get, filterMap_get, List.reverse_append,
    List.find?_append, ← get_buildGraph, ← get_buildGraph,
    get_buildGraph_of_nodup overlay.distinct, get_buildGraph_of_nodup base.distinct]
  rfl

/-! ## Budgets -/

/-- Parent edges of the nodes not yet seen. -/
def unseenEdges (nodes : List RevisionNode) (seen : List RevisionId) : Nat :=
  ((nodes.filter (·.id ∉ seen)).map (·.parentIds.length)).sum

theorem unseenEdges_cons (node : RevisionNode) (rest : List RevisionNode)
    (seen : List RevisionId) :
    unseenEdges (node :: rest) seen =
      (if node.id ∈ seen then 0 else node.parentIds.length) + unseenEdges rest seen := by
  by_cases h : node.id ∈ seen <;> simp [unseenEdges, h]

theorem unseenEdges_mono (nodes : List RevisionNode) (seen : List RevisionId)
    (current : RevisionId) :
    unseenEdges nodes (seen ++ [current]) ≤ unseenEdges nodes seen := by
  induction nodes with
  | nil => simp [unseenEdges]
  | cons node rest ih =>
    rw [unseenEdges_cons, unseenEdges_cons]
    by_cases h : node.id ∈ seen <;> by_cases h' : node.id = current <;> simp [h, h'] <;> omega

theorem unseenEdges_visit {nodes : List RevisionNode} (hdistinct : (nodes.map (·.id)).Nodup)
    {node : RevisionNode} (hnode : node ∈ nodes) {seen : List RevisionId}
    (hseen : node.id ∉ seen) :
    unseenEdges nodes (seen ++ [node.id]) + node.parentIds.length ≤ unseenEdges nodes seen := by
  induction nodes with
  | nil => cases hnode
  | cons m rest ih =>
    obtain ⟨hm, hrest⟩ := List.nodup_cons.mp hdistinct
    rw [unseenEdges_cons, unseenEdges_cons]
    rcases List.mem_cons.mp hnode with rfl | hnode
    · have := unseenEdges_mono rest seen node.id
      simp [hseen]
      omega
    · have hne : ¬ m.id = node.id := fun e => hm (List.mem_map.mpr ⟨node, hnode, e.symm⟩)
      have := ih hrest hnode
      by_cases h : m.id ∈ seen <;> simp [h, hne] <;> omega

theorem unseenEdges_get {graph : RevisionGraph} {current : RevisionId} {node : RevisionNode}
    (h : graph.get current = some node) {seen : List RevisionId} (hseen : current ∉ seen) :
    unseenEdges graph.nodes (seen ++ [current]) + node.parentIds.length ≤
      unseenEdges graph.nodes seen := by
  have hid := RevisionGraph.get_id h
  subst hid
  exact unseenEdges_visit graph.distinct (RevisionGraph.mem_of_get h) hseen

theorem mem_pushUnseen {seen parentIds queue : List RevisionId} {x : RevisionId} :
    x ∈ pushUnseen seen parentIds queue ↔ (x ∈ parentIds ∧ x ∉ seen) ∨ x ∈ queue := by
  simp [pushUnseen]

theorem pushUnseen_length (seen parentIds queue : List RevisionId) :
    (pushUnseen seen parentIds queue).length ≤ parentIds.length + queue.length := by
  have := List.length_filter_le (fun p => decide (p ∉ seen)) parentIds
  simp only [pushUnseen, List.length_append, List.length_reverse]
  omega

/-- Every parent of a seen node is seen or waits on the stack. -/
def WalkClosed (graph : RevisionGraph) (seen queue : List RevisionId) : Prop :=
  ∀ x ∈ seen, ∀ p, Parent graph x p → p ∈ seen ∨ p ∈ queue

theorem WalkClosed.skip {graph : RevisionGraph} {seen queue : List RevisionId}
    {current : RevisionId} (h : WalkClosed graph seen (current :: queue)) (hc : current ∈ seen) :
    WalkClosed graph seen queue := by
  intro x hx p hp
  rcases h x hx p hp with h | h
  · exact Or.inl h
  · rcases List.mem_cons.mp h with rfl | h
    · exact Or.inl hc
    · exact Or.inr h

theorem WalkClosed.frontier {graph : RevisionGraph} {seen queue : List RevisionId}
    {current : RevisionId} (h : WalkClosed graph seen (current :: queue))
    (hget : graph.get current = none) : WalkClosed graph (seen ++ [current]) queue := by
  intro x hx p hp
  rcases List.mem_append.mp hx with hx | hx
  · rcases h x hx p hp with h | h
    · exact Or.inl (List.mem_append_left _ h)
    · rcases List.mem_cons.mp h with rfl | h
      · exact Or.inl (by simp)
      · exact Or.inr h
  · obtain ⟨node, hnode, -⟩ := hp
    rw [List.mem_singleton.mp hx, hget] at hnode
    cases hnode

theorem WalkClosed.visit {graph : RevisionGraph} {seen queue : List RevisionId}
    {current : RevisionId} {node : RevisionNode}
    (h : WalkClosed graph seen (current :: queue)) (hget : graph.get current = some node) :
    WalkClosed graph (seen ++ [current])
      (pushUnseen (seen ++ [current]) node.parentIds queue) := by
  intro x hx p hp
  rw [mem_pushUnseen]
  rcases List.mem_append.mp hx with hx | hx
  · rcases h x hx p hp with h | h
    · exact Or.inl (List.mem_append_left _ h)
    · rcases List.mem_cons.mp h with rfl | h
      · exact Or.inl (by simp)
      · exact Or.inr (Or.inr h)
  · obtain ⟨node', hnode, hmem⟩ := hp
    rw [List.mem_singleton.mp hx, hget] at hnode
    obtain rfl := Option.some.inj hnode
    by_cases hseen : p ∈ seen ++ [current]
    · exact Or.inl hseen
    · exact Or.inr (Or.inl ⟨hmem, hseen⟩)

/-! ## `ancestorsOf` -/

/-- What a walk returns: a closed set over what was seen and queued, and nothing that those do
not reach. -/
structure WalkResult (graph : RevisionGraph) (seen queue result : List RevisionId) : Prop where
  nodup : result.Nodup
  keeps : ∀ x ∈ seen, x ∈ result
  takes : ∀ x ∈ queue, x ∈ result
  closed : ∀ x ∈ result, ∀ p, Parent graph x p → p ∈ result
  reached : ∀ x ∈ result, x ∈ seen ∨ ∃ q ∈ queue, ReflTransGen (Parent graph) q x

theorem ancestorsLoop_result (graph : RevisionGraph) (budget : Nat) :
    ∀ seen queue : List RevisionId, seen.Nodup → WalkClosed graph seen queue →
      queue.length + unseenEdges graph.nodes seen < budget →
      WalkResult graph seen queue (ancestorsLoop graph budget seen queue) := by
  induction budget with
  | zero => intro seen queue _ _ h; omega
  | succ budget ih =>
    intro seen queue hnodup hclosed hbudget
    cases queue with
    | nil =>
      refine ⟨hnodup, fun _ h => h, by simp, fun x hx p hp => ?_, fun x hx => Or.inl hx⟩
      exact (hclosed x hx p hp).resolve_right List.not_mem_nil
    | cons current queue =>
      simp only [List.length_cons] at hbudget
      by_cases hc : current ∈ seen
      · have r := ih seen queue hnodup (hclosed.skip hc) (by omega)
        simp only [ancestorsLoop, if_pos hc]
        refine ⟨r.nodup, r.keeps, fun x hx => ?_, r.closed, fun x hx => ?_⟩
        · rcases List.mem_cons.mp hx with rfl | hx
          · exact r.keeps _ hc
          · exact r.takes x hx
        · rcases r.reached x hx with h | ⟨q, hq, h⟩
          · exact Or.inl h
          · exact Or.inr ⟨q, List.mem_cons_of_mem _ hq, h⟩
      · have hnodup' : (seen ++ [current]).Nodup :=
          nodup_snoc hnodup hc
        simp only [ancestorsLoop, if_neg hc]
        cases hget : graph.get current with
        | none =>
          have hmono := unseenEdges_mono graph.nodes seen current
          have r := ih _ queue hnodup' (hclosed.frontier hget) (by omega)
          refine ⟨r.nodup, fun x hx => r.keeps x (List.mem_append_left _ hx), fun x hx => ?_,
            r.closed, fun x hx => ?_⟩
          · rcases List.mem_cons.mp hx with rfl | hx
            · exact r.keeps _ (by simp)
            · exact r.takes x hx
          · rcases r.reached x hx with h | ⟨q, hq, h⟩
            · rcases List.mem_append.mp h with h | h
              · exact Or.inl h
              · exact Or.inr ⟨current, by simp, List.mem_singleton.mp h ▸ .refl⟩
            · exact Or.inr ⟨q, List.mem_cons_of_mem _ hq, h⟩
        | some node =>
          have hedges := unseenEdges_get hget hc
          have hlength := pushUnseen_length (seen ++ [current]) node.parentIds queue
          have r := ih _ _ hnodup' (hclosed.visit hget) (by omega)
          refine ⟨r.nodup, fun x hx => r.keeps x (List.mem_append_left _ hx), fun x hx => ?_,
            r.closed, fun x hx => ?_⟩
          · rcases List.mem_cons.mp hx with rfl | hx
            · exact r.keeps _ (by simp)
            · exact r.takes x (mem_pushUnseen.mpr (Or.inr hx))
          · rcases r.reached x hx with h | ⟨q, hq, h⟩
            · rcases List.mem_append.mp h with h | h
              · exact Or.inl h
              · exact Or.inr ⟨current, by simp, List.mem_singleton.mp h ▸ .refl⟩
            · rcases mem_pushUnseen.mp hq with ⟨hq, -⟩ | hq
              · exact Or.inr ⟨current, by simp, .head ⟨node, hget, hq⟩ h⟩
              · exact Or.inr ⟨q, List.mem_cons_of_mem _ hq, h⟩

theorem unseenEdges_nil (graph : RevisionGraph) :
    unseenEdges graph.nodes [] = edgeCount graph := by
  simp [unseenEdges, edgeCount]

theorem ancestorsOf_result (graph : RevisionGraph) (id : RevisionId) :
    WalkResult graph [] [id] (ancestorsOf graph id) := by
  refine ancestorsLoop_result graph _ [] [id] List.nodup_nil (by simp [WalkClosed]) ?_
  rw [unseenEdges_nil]
  simp
  omega

theorem nodup_ancestorsOf (graph : RevisionGraph) (id : RevisionId) :
    (ancestorsOf graph id).Nodup := (ancestorsOf_result graph id).nodup

/-- `ancestorsOf` is reachability by zero or more parent steps. -/
theorem mem_ancestorsOf {graph : RevisionGraph} {id x : RevisionId} :
    x ∈ ancestorsOf graph id ↔ ReflTransGen (Parent graph) id x := by
  have r := ancestorsOf_result graph id
  constructor
  · intro hx
    rcases r.reached x hx with h | ⟨q, hq, h⟩
    · cases h
    · exact List.mem_singleton.mp hq ▸ h
  · intro h
    induction h with
    | refl => exact r.takes id (by simp)
    | tail _ hp ih => exact r.closed _ ih _ hp

theorem finite_ancestors (graph : RevisionGraph) (id : RevisionId) :
    {x | ReflTransGen (Parent graph) id x}.Finite :=
  (List.finite_toSet (ancestorsOf graph id)).subset fun _ hx => mem_ancestorsOf.mpr hx

/-! ## `isAncestor` -/

theorem isAncestorLoop_iff (graph : RevisionGraph) (ancestor : RevisionId) (budget : Nat) :
    ∀ seen queue : List RevisionId, WalkClosed graph seen queue →
      (∀ x ∈ seen, ¬ Parent graph x ancestor) →
      queue.length + unseenEdges graph.nodes seen < budget →
      (isAncestorLoop graph ancestor budget seen queue = true ↔
        ∃ q, (q ∈ seen ∨ q ∈ queue) ∧ TransGen (Parent graph) q ancestor) := by
  induction budget with
  | zero => intro seen queue _ _ h; omega
  | succ budget ih =>
    intro seen queue hclosed hseen hbudget
    cases queue with
    | nil =>
      simp only [isAncestorLoop, Bool.false_eq_true, List.not_mem_nil, or_false, false_iff,
        not_exists, not_and]
      -- The seen ids are closed and none of them has `ancestor` for a parent.
      intro q hq hpath
      obtain ⟨y, hqy, hlast⟩ := TransGen.tail'_iff.mp hpath
      refine hseen y (Ancestry.mem_of_reflTransGen (S := {x | x ∈ seen}) ?_ hq hqy) hlast
      intro x p hx hp
      simpa using hclosed x hx p hp
    | cons current queue =>
      simp only [List.length_cons] at hbudget
      by_cases hc : current ∈ seen
      · rw [isAncestorLoop, if_pos hc, ih seen queue (hclosed.skip hc) hseen (by omega)]
        constructor
        · rintro ⟨q, hq, h⟩
          exact ⟨q, hq.imp_right (List.mem_cons_of_mem _), h⟩
        · rintro ⟨q, hq, h⟩
          rcases hq with hq | hq
          · exact ⟨q, Or.inl hq, h⟩
          · rcases List.mem_cons.mp hq with rfl | hq
            · exact ⟨q, Or.inl hc, h⟩
            · exact ⟨q, Or.inr hq, h⟩
      · rw [isAncestorLoop, if_neg hc]
        cases hget : graph.get current with
        | none =>
          have hmono := unseenEdges_mono graph.nodes seen current
          have hno : ∀ x ∈ seen ++ [current], ¬ Parent graph x ancestor := by
            intro x hx hp
            rcases List.mem_append.mp hx with hx | hx
            · exact hseen x hx hp
            · obtain ⟨node, hnode, -⟩ := hp
              rw [List.mem_singleton.mp hx, hget] at hnode
              cases hnode
          simp only
          rw [ih _ queue (hclosed.frontier hget) hno (by omega)]
          constructor <;> rintro ⟨q, hq, h⟩ <;> refine ⟨q, ?_, h⟩ <;> simp at hq ⊢ <;> tauto
        | some node =>
          simp only
          by_cases hmem : ancestor ∈ node.parentIds
          · rw [if_pos hmem]
            exact ⟨fun _ => ⟨current, Or.inr (by simp), .single ⟨node, hget, hmem⟩⟩,
              fun _ => rfl⟩
          · have hedges := unseenEdges_get hget hc
            have hlength := pushUnseen_length (seen ++ [current]) node.parentIds queue
            have hno : ∀ x ∈ seen ++ [current], ¬ Parent graph x ancestor := by
              intro x hx hp
              rcases List.mem_append.mp hx with hx | hx
              · exact hseen x hx hp
              · obtain ⟨node', hnode, hp⟩ := hp
                rw [List.mem_singleton.mp hx, hget] at hnode
                exact hmem (Option.some.inj hnode ▸ hp)
            rw [if_neg hmem, ih _ _ (hclosed.visit hget) hno (by omega)]
            constructor
            · rintro ⟨q, hq, h⟩
              rcases hq with hq | hq
              · exact ⟨q, by simp at hq ⊢; tauto, h⟩
              · rcases mem_pushUnseen.mp hq with ⟨hq, -⟩ | hq
                · exact ⟨current, Or.inr (by simp), .head ⟨node, hget, hq⟩ h⟩
                · exact ⟨q, Or.inr (List.mem_cons_of_mem _ hq), h⟩
            · rintro ⟨q, hq, h⟩
              refine ⟨q, ?_, h⟩
              rw [mem_pushUnseen]
              simp at hq ⊢
              tauto

/-- `isAncestor` is reachability by zero or more parent steps. -/
theorem isAncestor_iff {graph : RevisionGraph} {ancestor descendant : RevisionId} :
    isAncestor graph ancestor descendant = true ↔
      ReflTransGen (Parent graph) descendant ancestor := by
  rw [isAncestor]
  by_cases h : ancestor = descendant
  · rw [if_pos h]
    exact ⟨fun _ => h ▸ .refl, fun _ => rfl⟩
  · rw [if_neg h, isAncestorLoop_iff graph ancestor _ [] [descendant] (by simp [WalkClosed])
      (by simp) (by rw [unseenEdges_nil]; simp; omega)]
    simp only [List.not_mem_nil, List.mem_singleton, false_or, exists_eq_left]
    exact ⟨TransGen.to_reflTransGen, fun hpath =>
      Ancestry.transGen_of_ne hpath (Ne.symm h)⟩

theorem isAncestor_iff_mem {graph : RevisionGraph} {ancestor descendant : RevisionId} :
    isAncestor graph ancestor descendant = true ↔ ancestor ∈ ancestorsOf graph descendant := by
  rw [isAncestor_iff, mem_ancestorsOf]

/-! ## Merge bases and verdicts -/

theorem mem_dominatedBy {graph : RevisionGraph} {common : List RevisionId} {x : RevisionId} :
    x ∈ dominatedBy graph common ↔ ∃ c ∈ common, TransGen (Parent graph) c x := by
  simp only [dominatedBy, List.mem_flatMap]
  constructor
  · rintro ⟨c, hc, hx⟩
    cases hget : graph.get c with
    | none => simp [hget] at hx
    | some node =>
      simp only [hget, List.mem_flatMap] at hx
      obtain ⟨p, hp, hx⟩ := hx
      exact ⟨c, hc, .head' ⟨node, hget, hp⟩ (mem_ancestorsOf.mp hx)⟩
  · rintro ⟨c, hc, hx⟩
    obtain ⟨p, ⟨node, hget, hp⟩, hpx⟩ := TransGen.head'_iff.mp hx
    refine ⟨c, hc, ?_⟩
    simp only [hget, List.mem_flatMap]
    exact ⟨p, hp, mem_ancestorsOf.mpr hpx⟩

theorem mem_common {graph : RevisionGraph} {a b x : RevisionId} :
    x ∈ (ancestorsOf graph a).filter (· ∈ ancestorsOf graph b) ↔
      Ancestry.Common (Parent graph) a b x := by
  simp only [List.mem_filter, decide_eq_true_eq, mem_ancestorsOf]
  rfl

/-- `findMergeBase` lists the best common ancestors. -/
theorem mem_findMergeBase {graph : RevisionGraph} {a b x : RevisionId} :
    x ∈ findMergeBase graph a b ↔ Ancestry.Base (Parent graph) a b x := by
  simp only [findMergeBase]
  by_cases hempty : ((ancestorsOf graph a).filter (· ∈ ancestorsOf graph b)).isEmpty = true
  · rw [if_pos hempty]
    simp only [List.not_mem_nil, false_iff]
    intro h
    have := mem_common.mpr h.1
    rw [List.isEmpty_iff.mp hempty] at this
    cases this
  · rw [if_neg hempty, List.mem_filter, mem_common, decide_eq_true_eq, mem_dominatedBy]
    simp only [not_exists, not_and]
    exact and_congr_right fun _ =>
      ⟨fun h y hy => h y (mem_common.mpr hy), fun h y hy => h y (mem_common.mp hy)⟩

theorem nodup_findMergeBase (graph : RevisionGraph) (a b : RevisionId) :
    (findMergeBase graph a b).Nodup := by
  simp only [findMergeBase]
  split
  · exact List.nodup_nil
  · exact ((nodup_ancestorsOf graph a).filter _).filter _

/-- Two verdicts that differ at most in the order in which they list the merge bases. -/
def Divergence.Same : Divergence → Divergence → Prop
  | .equal, .equal => True
  | .localAhead, .localAhead => True
  | .remoteAhead, .remoteAhead => True
  | .diverged bases, .diverged bases' => ∀ x, x ∈ bases ↔ x ∈ bases'
  | .unrelated, .unrelated => True
  | _, _ => False

theorem Divergence.Same.refl (d : Divergence) : d.Same d := by
  cases d <;> simp [Divergence.Same]

theorem Divergence.Same.symm {d d' : Divergence} (h : d.Same d') : d'.Same d := by
  cases d <;> cases d' <;> simp_all [Divergence.Same]

/-- The verdict on a fork: which merge bases, or none at all. -/
def forkVerdict (mergeBases : List RevisionId) : Divergence :=
  if mergeBases.length = 0 then .unrelated else .diverged mergeBases

theorem forkVerdict_same {bases bases' : List RevisionId} (h : ∀ x, x ∈ bases ↔ x ∈ bases') :
    (forkVerdict bases).Same (forkVerdict bases') := by
  have hnil : bases = [] ↔ bases' = [] := by
    simp only [List.eq_nil_iff_forall_not_mem, h]
  by_cases hb : bases = []
  · simp [forkVerdict, hb, hnil.mp hb, Divergence.Same]
  · simp [forkVerdict, hb, mt hnil.mpr hb, Divergence.Same, h]

theorem mem_of_forkVerdict_same {bases bases' : List RevisionId}
    (h : (forkVerdict bases).Same (forkVerdict bases')) (x : RevisionId) :
    x ∈ bases ↔ x ∈ bases' := by
  by_cases hb : bases = [] <;> by_cases hb' : bases' = []
  · rw [hb, hb']
  all_goals simp_all [forkVerdict, Divergence.Same]

/-- What each verdict of `classifyDivergence` says about the two heads. -/
theorem classifyDivergence_eq (graph : RevisionGraph) (a b : RevisionId)
    (hne : a ≠ b) :
    classifyDivergence graph a b =
      if isAncestor graph b a then .localAhead
      else if isAncestor graph a b then .remoteAhead
      else forkVerdict (findMergeBase graph a b) := by
  rw [classifyDivergence, if_neg hne]
  rfl

theorem classifyDivergence_localAhead {graph : RevisionGraph} {a b : RevisionId} :
    classifyDivergence graph a b = .localAhead ↔
      a ≠ b ∧ ReflTransGen (Parent graph) a b := by
  rw [← isAncestor_iff]
  by_cases hab : a = b
  · simp [classifyDivergence, hab]
  rw [classifyDivergence_eq _ _ _ hab]
  by_cases h : isAncestor graph b a = true
  · simp [h, hab]
  by_cases h' : isAncestor graph a b = true
  · simp [h, h']
  by_cases hb : (findMergeBase graph a b).length = 0 <;> simp [h, h', forkVerdict, hb]

theorem classifyDivergence_remoteAhead {graph : RevisionGraph} {a b : RevisionId}
    (h : classifyDivergence graph a b = .remoteAhead) :
    ReflTransGen (Parent graph) b a := by
  rw [← isAncestor_iff]
  simp only [classifyDivergence] at h
  split at h
  · cases h
  · split at h
    · cases h
    · split at h
      · assumption
      · split at h <;> cases h

/-- Two graphs that agree on the ancestry of two heads and on their best common ancestors
classify them alike. -/
theorem classifyDivergence_same {graph graph' : RevisionGraph} {a b : RevisionId}
    (h : Ancestry.SameVerdict (Parent graph) (Parent graph') a b) :
    (classifyDivergence graph a b).Same (classifyDivergence graph' a b) := by
  have hbelow : isAncestor graph b a = isAncestor graph' b a :=
    Bool.eq_iff_iff.mpr (by rw [isAncestor_iff, isAncestor_iff]; exact h.below)
  have habove : isAncestor graph a b = isAncestor graph' a b :=
    Bool.eq_iff_iff.mpr (by rw [isAncestor_iff, isAncestor_iff]; exact h.above)
  by_cases hab : a = b
  · simp [classifyDivergence, hab, Divergence.Same]
  rw [classifyDivergence_eq _ _ _ hab, classifyDivergence_eq _ _ _ hab, hbelow, habove]
  by_cases h1 : isAncestor graph' b a = true
  · simp [h1, Divergence.Same]
  by_cases h2 : isAncestor graph' a b = true
  · simp [h1, h2, Divergence.Same]
  rw [if_neg h1, if_neg h2, if_neg h1, if_neg h2]
  apply forkVerdict_same
  intro x
  rw [mem_findMergeBase, mem_findMergeBase]
  exact h.bases (mt isAncestor_iff.mpr h1) (mt isAncestor_iff.mpr h2) x

/-- The converse: verdicts that agree in both directions fix the ancestry and the bases. -/
theorem sameVerdict_of_classify {graph graph' : RevisionGraph} {a b : RevisionId}
    (h : (classifyDivergence graph a b).Same (classifyDivergence graph' a b))
    (h' : (classifyDivergence graph b a).Same (classifyDivergence graph' b a)) :
    Ancestry.SameVerdict (Parent graph) (Parent graph') a b := by
  have ahead : ∀ {a b : RevisionId},
      (classifyDivergence graph a b).Same (classifyDivergence graph' a b) →
      (ReflTransGen (Parent graph) a b ↔ ReflTransGen (Parent graph') a b) := by
    intro a b h
    by_cases hab : a = b
    · exact ⟨fun _ => hab ▸ .refl, fun _ => hab ▸ .refl⟩
    · have h1 : classifyDivergence graph a b = .localAhead ↔ _ := classifyDivergence_localAhead
      have h2 : classifyDivergence graph' a b = .localAhead ↔ _ := classifyDivergence_localAhead
      simp only [ne_eq, hab, not_false_eq_true, true_and] at h1 h2
      rw [← h1, ← h2]
      revert h
      cases classifyDivergence graph a b <;> cases classifyDivergence graph' a b <;>
        simp [Divergence.Same]
  refine ⟨ahead h, ahead h', fun hab hba x => ?_⟩
  have hne : a ≠ b := fun e => hab (e ▸ .refl)
  have h1 : ¬ isAncestor graph' b a = true := mt isAncestor_iff.mp hab
  have h2 : ¬ isAncestor graph' a b = true := mt isAncestor_iff.mp hba
  have h3 : ¬ isAncestor graph b a = true := mt isAncestor_iff.mp (mt (ahead h).mp hab)
  have h4 : ¬ isAncestor graph a b = true := mt isAncestor_iff.mp (mt (ahead h').mp hba)
  rw [classifyDivergence_eq _ _ _ hne, classifyDivergence_eq _ _ _ hne, if_neg h1, if_neg h2,
    if_neg h3, if_neg h4] at h
  rw [← mem_findMergeBase, ← mem_findMergeBase]
  exact mem_of_forkVerdict_same h x

end PassVault
