import PassVault.Lib.Query
import PassVault.Sync.VaultIsolation

/-!
# Views of a history

`packages/storage-sql/src/sqliteMetadataStore.ts` answers for the history of a vault in three ways:
`loadGraph` folds a `LEFT JOIN`, `listRevisions` asks for the parents of each row, and
`ancestorIdsOf` is a recursive query. Where every edge joins revisions of one vault they agree,
whatever order the rows of the join come in.
-/

namespace PassVault

open Relation

/-- One row of the join: the id keeps its place, its parent is added. -/
def addJoined : List RevisionNode → RevisionId × Option RevisionId → List RevisionNode
  | [], row => [⟨row.1, row.2.toList⟩]
  | node :: rest, row =>
    if node.id = row.1 then { node with parentIds := node.parentIds ++ row.2.toList } :: rest
    else node :: addJoined rest row

/-- The loops of `loadGraph` over the rows of its query. -/
def graphOfRows (rows : List (RevisionId × Option RevisionId)) : RevisionGraph :=
  buildGraph (rows.foldl addJoined [])

namespace Tables

/-- `revisions r LEFT JOIN revision_parents rp ON rp.revision_id = r.id WHERE r.vault_id = ?`. -/
def joinedRows (t : Tables) (vaultId : VaultId) : List (RevisionId × Option RevisionId) :=
  (Query.leftJoin (t.rowsOf vaultId) t.revisionParents.rows
    fun r rp => rp.revisionId = r.id).map fun row => (row.1.id, row.2.map (·.parentId))

/-- `ANCESTORS_CTE`. A row leads to its parents, so there are at most as many rows as edges, and
the one it starts with. -/
def ancestorIdsOf (t : Tables) (revisionId : RevisionId) : List RevisionId :=
  Query.recursiveUnion t.parentsOf (t.revisionParents.rows.length + 2) revisionId

end Tables

/-! ## The fold -/

/-- The parents that the rows give an id. -/
def joinedParents (rows : List (RevisionId × Option RevisionId)) (id : RevisionId) :
    List RevisionId :=
  rows.filterMap fun row => if row.1 = id then row.2 else none

theorem find?_addJoined (nodes : List RevisionNode) (row : RevisionId × Option RevisionId)
    (id : RevisionId) :
    (addJoined nodes row).find? (·.id = id) =
      if row.1 = id then
        some ⟨id, ((nodes.find? (·.id = id)).map (·.parentIds)).getD [] ++ row.2.toList⟩
      else nodes.find? (·.id = id) := by
  induction nodes with
  | nil => by_cases h : row.1 = id <;> simp [addJoined, h]
  | cons node rest ih =>
    by_cases hnode : node.id = row.1
    · by_cases h : row.1 = id
      · simp [addJoined, hnode, h]
      · simp [addJoined, hnode, h]
    · by_cases h : row.1 = id
      · have hid : ¬ node.id = id := fun e => hnode (e.trans h.symm)
        rw [if_pos h] at ih
        simp [addJoined, hid, h, ih]
      · rw [if_neg h] at ih
        simp [addJoined, hnode, h, List.find?_cons, ih]

theorem joinedParents_cons (row : RevisionId × Option RevisionId)
    (rows : List (RevisionId × Option RevisionId)) (id : RevisionId) :
    joinedParents (row :: rows) id =
      (if row.1 = id then row.2.toList else []) ++ joinedParents rows id := by
  obtain ⟨id', parent⟩ := row
  by_cases h : id' = id <;> cases parent <;> simp [joinedParents, h]

theorem joinedParents_eq_nil {rows : List (RevisionId × Option RevisionId)} {id : RevisionId}
    (h : id ∉ rows.map (·.1)) : joinedParents rows id = [] := by
  apply List.filterMap_eq_nil_iff.mpr
  intro row hrow
  rw [if_neg]
  rintro rfl
  exact h (List.mem_map_of_mem hrow)

theorem find?_foldl_addJoined (rows : List (RevisionId × Option RevisionId))
    (nodes : List RevisionNode) (id : RevisionId) :
    (rows.foldl addJoined nodes).find? (·.id = id) =
      if id ∈ rows.map (·.1) then
        some ⟨id, ((nodes.find? (·.id = id)).map (·.parentIds)).getD [] ++ joinedParents rows id⟩
      else nodes.find? (·.id = id) := by
  induction rows generalizing nodes with
  | nil => simp
  | cons row rest ih =>
    rw [List.foldl_cons, ih, find?_addJoined, joinedParents_cons]
    by_cases hrow : row.1 = id
    · have hmem : id ∈ (row :: rest).map (·.1) := by simp [hrow]
      rw [if_pos hrow, if_pos hmem, if_pos hrow]
      split
      · simp
      · rename_i hrest
        simp [joinedParents_eq_nil hrest]
    · have hne : ¬ id = row.1 := fun e => hrow e.symm
      rw [if_neg hrow, if_neg hrow, List.map_cons]
      simp only [List.mem_cons, hne, false_or, List.nil_append]

theorem addJoined_ids (nodes : List RevisionNode) (row : RevisionId × Option RevisionId) :
    (addJoined nodes row).map (·.id) =
      if row.1 ∈ nodes.map (·.id) then nodes.map (·.id) else nodes.map (·.id) ++ [row.1] := by
  induction nodes with
  | nil => simp [addJoined]
  | cons node rest ih =>
    by_cases h : node.id = row.1
    · simp [addJoined, h]
    · have h' : ¬ row.1 = node.id := fun e => h e.symm
      simp only [addJoined, if_neg h, List.map_cons, ih, List.mem_cons, h', false_or]
      split <;> simp

theorem nodup_foldl_addJoined (rows : List (RevisionId × Option RevisionId))
    {nodes : List RevisionNode} (h : (nodes.map (·.id)).Nodup) :
    ((rows.foldl addJoined nodes).map (·.id)).Nodup := by
  induction rows generalizing nodes with
  | nil => exact h
  | cons row rest ih =>
    refine ih ?_
    rw [addJoined_ids]
    split
    · exact h
    · rename_i hnot
      exact nodup_snoc h hnot

/-- The graph defines the ids of the rows, with the parents that the rows give them. -/
theorem get_graphOfRows (rows : List (RevisionId × Option RevisionId)) (id : RevisionId) :
    (graphOfRows rows).get id =
      if id ∈ rows.map (·.1) then some ⟨id, joinedParents rows id⟩ else none := by
  have hnil : (([] : List RevisionNode).map (·.id)).Nodup := List.nodup_nil
  rw [graphOfRows, get_buildGraph_of_nodup (nodup_foldl_addJoined rows hnil),
    find?_foldl_addJoined]
  simp

namespace Tables

variable {t : Tables} {vaultId : VaultId}

/-! ## The rows of the join -/

theorem mem_joinedRows {id : RevisionId} :
    id ∈ (t.joinedRows vaultId).map (·.1) ↔ t.OfVault vaultId id := by
  rw [← mem_rowsOf]
  simp only [joinedRows, List.map_map]
  constructor
  · intro h
    obtain ⟨row, hrow, rfl⟩ := List.mem_map.mp h
    exact List.mem_map_of_mem ((Query.map_fst_leftJoin ..).mp (List.mem_map_of_mem hrow))
  · intro h
    obtain ⟨r, hr, rfl⟩ := List.mem_map.mp h
    obtain ⟨row, hrow, hfst⟩ := List.mem_map.mp ((Query.map_fst_leftJoin (t.rowsOf vaultId)
      t.revisionParents.rows (fun r rp => rp.revisionId = r.id) r).mpr hr)
    exact List.mem_map.mpr ⟨row, hrow, by simp [← hfst]⟩

theorem nodup_rowsOf (t : Tables) (vaultId : VaultId) : ((t.rowsOf vaultId).map (·.id)).Nodup :=
  (List.filter_sublist.map _).nodup t.revisions.distinct

/-- Of rows with distinct ids one has the id. -/
theorem flatMap_of_nodup {rows : List RevisionRow} (hdistinct : (rows.map (·.id)).Nodup)
    {id : RevisionId} (h : id ∈ rows.map (·.id)) (parents : List RevisionId) :
    rows.flatMap (fun r => if r.id = id then parents else []) = parents := by
  induction rows with
  | nil => cases h
  | cons row rest ih =>
    obtain ⟨hrow, hrest⟩ := List.nodup_cons.mp hdistinct
    rw [List.flatMap_cons]
    by_cases hid : row.id = id
    · have hnone : rest.flatMap (fun r => if r.id = id then parents else []) = [] := by
        refine List.flatMap_eq_nil_iff.mpr fun r hr => if_neg fun e => ?_
        exact hrow (List.mem_map.mpr ⟨r, hr, e.trans hid.symm⟩)
      rw [if_pos hid, hnone, List.append_nil]
    · rw [if_neg hid, List.nil_append]
      refine ih hrest ?_
      rcases List.mem_cons.mp h with h | h
      · exact absurd h.symm hid
      · exact h

/-- The join gives a revision the parents that a query of its own gives it. -/
theorem joinedParents_joinedRows {id : RevisionId} (h : t.OfVault vaultId id) :
    joinedParents (t.joinedRows vaultId) id = t.parentsOf id := by
  have hjoin := Query.filterMap_leftJoin (t.rowsOf vaultId) t.revisionParents.rows
    (fun r rp => rp.revisionId = r.id) fun r rp => if r.id = id then some rp.parentId else none
  have hrows : joinedParents (t.joinedRows vaultId) id =
      (t.rowsOf vaultId).flatMap fun r => if r.id = id then t.parentsOf id else [] := by
    rw [joinedParents, joinedRows, List.filterMap_map]
    refine Eq.trans ?_ (hjoin.trans (List.flatMap_congr fun r _ => ?_))
    · congr 1
      funext row
      by_cases hid : row.1.id = id <;> cases hrow : row.2 <;> simp [hid, hrow]
    · by_cases hid : r.id = id
      · simp [hid, parentsOf, List.filterMap_eq_map']
      · simp [hid]
  rw [hrows]
  exact flatMap_of_nodup (nodup_rowsOf t vaultId) (mem_rowsOf.mpr h) _

/-! ## Agreement -/

theorem mem_listRevisions {revision : Revision} :
    revision ∈ t.listRevisions vaultId ↔
      t.getRevision revision.id = some revision ∧ revision.vaultId = vaultId := by
  simp only [listRevisions, List.mem_map, List.mem_mergeSort, rowsOf, List.mem_filter,
    decide_eq_true_eq]
  constructor
  · rintro ⟨row, ⟨hrow, hvault⟩, rfl⟩
    exact ⟨getRevision_eq_some.mpr ⟨row, Table.find_of_mem hrow, rfl⟩, hvault⟩
  · rintro ⟨hget, hvault⟩
    obtain ⟨row, hrow, heq⟩ := getRevision_eq_some.mp hget
    have hid : row.id = revision.id := Table.key_of_find hrow
    refine ⟨row, ⟨Table.mem_of_find hrow, ?_⟩, hid ▸ heq⟩
    rw [← heq] at hvault
    exact hvault

theorem ofVault_iff_listed {id : RevisionId} :
    t.OfVault vaultId id ↔ ∃ revision ∈ t.listRevisions vaultId, revision.id = id := by
  constructor
  · rintro ⟨row, hrow, hvault⟩
    have hid : row.id = id := Table.key_of_find hrow
    have hget : t.getRevision id = some (toRevision row (t.parentsOf id)) :=
      getRevision_eq_some.mpr ⟨row, hrow, rfl⟩
    refine ⟨toRevision row (t.parentsOf id), mem_listRevisions.mpr ⟨?_, hvault⟩, hid⟩
    exact (congrArg t.getRevision hid).trans hget
  · rintro ⟨revision, hmem, rfl⟩
    obtain ⟨hget, hvault⟩ := mem_listRevisions.mp hmem
    obtain ⟨row, hrow, heq⟩ := getRevision_eq_some.mp hget
    rw [← heq] at hvault
    exact ⟨row, hrow, hvault⟩

theorem OfVault.unique {v v' : VaultId} {id : RevisionId} (h : t.OfVault v id)
    (h' : t.OfVault v' id) : v = v' := by
  obtain ⟨row, hrow, rfl⟩ := h
  obtain ⟨row', hrow', rfl⟩ := h'
  cases hrow.symm.trans hrow'
  rfl

/-- A graph, `listRevisions`, `historySummary` and `getRevision` define the same revisions of a
vault, with the same parents. -/
structure ViewsAgree (t : Tables) (vaultId : VaultId) (graph : RevisionGraph) : Prop where
  listed : ∀ id, graph.has id = true ↔ ∃ revision ∈ t.listRevisions vaultId, revision.id = id
  summed : ∀ id, graph.has id = true ↔ ∃ entry ∈ t.historySummary vaultId, entry.revisionId = id
  listed_once : ((t.listRevisions vaultId).map (·.id)).Nodup
  summed_once : ((t.historySummary vaultId).map (·.revisionId)).Nodup
  listed_parents : ∀ revision ∈ t.listRevisions vaultId,
    ∃ node, graph.get revision.id = some node ∧ node.parentIds.Perm revision.parentIds
  summed_parents : ∀ entry ∈ t.historySummary vaultId,
    ∃ node, graph.get entry.revisionId = some node ∧ node.parentIds.Perm entry.parentIds
  got : ∀ revision, revision ∈ t.listRevisions vaultId ↔
    t.getRevision revision.id = some revision ∧ revision.vaultId = vaultId

theorem nodup_listRevisions (t : Tables) (vaultId : VaultId) :
    ((t.listRevisions vaultId).map (·.id)).Nodup := by
  have hids : (t.listRevisions vaultId).map (·.id) =
      ((t.rowsOf vaultId).mergeSort fun r r' => r'.createdAt ≤ r.createdAt).map (·.id) := by
    simp [listRevisions, toRevision, Function.comp_def]
  rw [hids]
  exact ((List.mergeSort_perm _ _).map _).nodup_iff.mpr (nodup_rowsOf t vaultId)

section Joined

variable {rows : List (RevisionId × Option RevisionId)}

theorem has_graphOfRows (hrows : rows.Perm (t.joinedRows vaultId)) {id : RevisionId} :
    (graphOfRows rows).has id = true ↔ t.OfVault vaultId id := by
  rw [RevisionGraph.has, get_graphOfRows, ← mem_joinedRows, ← (hrows.map (·.1)).mem_iff]
  split <;> simp_all

theorem node_graphOfRows (hrows : rows.Perm (t.joinedRows vaultId)) {id : RevisionId}
    (h : t.OfVault vaultId id) :
    ∃ node, (graphOfRows rows).get id = some node ∧ node.parentIds.Perm (t.parentsOf id) := by
  have hmem : id ∈ rows.map (·.1) := (hrows.map _).mem_iff.mpr (mem_joinedRows.mpr h)
  refine ⟨_, by rw [get_graphOfRows, if_pos hmem], ?_⟩
  rw [← joinedParents_joinedRows h]
  exact hrows.filterMap _

theorem viewsAgree_graphOfRows (hrows : rows.Perm (t.joinedRows vaultId)) :
    t.ViewsAgree vaultId (graphOfRows rows) := by
  have hlisted : ∀ id, (graphOfRows rows).has id = true ↔
      ∃ revision ∈ t.listRevisions vaultId, revision.id = id := fun id =>
    (has_graphOfRows hrows).trans ofVault_iff_listed
  have hparents : ∀ revision ∈ t.listRevisions vaultId,
      ∃ node, (graphOfRows rows).get revision.id = some node ∧
        node.parentIds.Perm revision.parentIds := by
    intro revision hmem
    obtain ⟨row, hrow, heq⟩ := getRevision_eq_some.mp (mem_listRevisions.mp hmem).1
    obtain ⟨node, hnode, hperm⟩ :=
      node_graphOfRows hrows (ofVault_iff_listed.mpr ⟨revision, hmem, rfl⟩)
    have hids : revision.parentIds = t.parentsOf revision.id := by
      conv_lhs => rw [← heq]
      rfl
    exact ⟨node, hnode, hids ▸ hperm⟩
  refine ⟨hlisted, fun id => (hlisted id).trans ?_, nodup_listRevisions t vaultId, ?_, hparents,
    fun entry hentry => ?_, fun revision => mem_listRevisions⟩
  · simp [historySummary]
  · have hids : (t.historySummary vaultId).map (·.revisionId) =
        (t.listRevisions vaultId).map (·.id) := by
      simp [historySummary, Function.comp_def]
    exact hids ▸ nodup_listRevisions t vaultId
  · obtain ⟨revision, hmem, rfl⟩ := List.mem_map.mp hentry
    exact hparents revision hmem

theorem parent_graphOfRows (hrows : rows.Perm (t.joinedRows vaultId)) {x p : RevisionId} :
    Parent (graphOfRows rows) x p ↔ t.OfVault vaultId x ∧ t.StoredParent x p := by
  constructor
  · rintro ⟨node, hnode, hp⟩
    have hx := (has_graphOfRows hrows).mp (RevisionGraph.has_iff.mpr ⟨node, hnode⟩)
    obtain ⟨node', hnode', hperm⟩ := node_graphOfRows hrows hx
    cases hnode.symm.trans hnode'
    exact ⟨hx, mem_parentsOf.mp (hperm.mem_iff.mp hp)⟩
  · rintro ⟨hx, hp⟩
    obtain ⟨node, hnode, hperm⟩ := node_graphOfRows hrows hx
    exact ⟨node, hnode, hperm.mem_iff.mpr (mem_parentsOf.mpr hp)⟩

/-- What the fold gives is a graph of the vault, as `loadGraph` of the model is one. -/
theorem graphOf_graphOfRows (hrows : rows.Perm (t.joinedRows vaultId)) :
    t.GraphOf vaultId (graphOfRows rows) :=
  ⟨fun _ => has_graphOfRows hrows, fun _ _ => parent_graphOfRows hrows⟩

end Joined

/-- The recursive query finds what the stored edges lead to. -/
theorem mem_ancestorIdsOf {r x : RevisionId} :
    x ∈ t.ancestorIdsOf r ↔ ReflTransGen t.StoredParent r x := by
  have hnext : ∀ x, ∀ p ∈ t.parentsOf x, p ∈ t.revisionParents.rows.map (·.parentId) :=
    fun x p hp => List.mem_map.mpr ⟨⟨x, p⟩, mem_parentsOf.mp hp, rfl⟩
  have hsame : (fun a b => b ∈ t.parentsOf a) = t.StoredParent := by
    funext x p
    exact propext mem_parentsOf
  rw [ancestorIdsOf, Query.mem_recursiveUnion hnext (by simp), hsame]

/-- **The views of a history agree.** Where every edge joins revisions of one vault, the graph
that `loadGraph` folds from its rows, in whatever order they come, `listRevisions`,
`historySummary` and `getRevision` define the same revisions of a vault with the same parents,
and the recursive query finds the ancestors that a walk of the graph finds, each once. -/
theorem views_agree
    (hone : ∀ x p, t.StoredParent x p → ∃ v, t.OfVault v x ∧ t.OfVault v p)
    (vaultId : VaultId) {rows : List (RevisionId × Option RevisionId)}
    (hrows : rows.Perm (t.joinedRows vaultId)) :
    t.ViewsAgree vaultId (graphOfRows rows) ∧
      ∀ r, t.OfVault vaultId r → (t.ancestorIdsOf r).Nodup ∧
        ∀ x, x ∈ t.ancestorIdsOf r ↔ x ∈ ancestorsOf (graphOfRows rows) r := by
  refine ⟨viewsAgree_graphOfRows hrows, fun r hr =>
    ⟨Query.nodup_recurse (List.nodup_singleton _), fun x => ?_⟩⟩
  have hgraph := graphOf_graphOfRows hrows
  rw [mem_ancestorIdsOf, mem_ancestorsOf]
  constructor
  · intro hpath
    -- Every revision on the path is one of the vault.
    suffices h : t.OfVault vaultId x ∧ ReflTransGen (Parent (graphOfRows rows)) r x from h.2
    induction hpath with
    | refl => exact ⟨hr, .refl⟩
    | tail _ hstep ih =>
      obtain ⟨v, hv, hp⟩ := hone _ _ hstep
      obtain rfl := hv.unique ih.1
      exact ⟨hp, ih.2.tail ((hgraph.parent _ _).mpr ⟨ih.1, hstep⟩)⟩
  · exact ReflTransGen.mono (fun _ _ h => ((hgraph.parent _ _).mp h).2) _ _

/-- One vault of two, with two revisions. -/
theorem views_agree_twoVaults :
    (storeAfter twoVaults).tables.ViewsAgree ⟨"home"⟩
        (graphOfRows [(⟨"h2"⟩, some ⟨"h1"⟩), (⟨"h1"⟩, none)]) ∧
      ∀ x, x ∈ (storeAfter twoVaults).tables.ancestorIdsOf ⟨"h2"⟩ ↔
        x ∈ ancestorsOf (graphOfRows [(⟨"h2"⟩, some ⟨"h1"⟩), (⟨"h1"⟩, none)]) ⟨"h2"⟩ := by
  have hedges : (storeAfter twoVaults).tables.revisionParents.rows = [⟨⟨"h2"⟩, ⟨"h1"⟩⟩] := rfl
  have hrows : [(⟨"h2"⟩, some ⟨"h1"⟩), (⟨"h1"⟩, none)].Perm
      ((storeAfter twoVaults).tables.joinedRows ⟨"home"⟩) := .swap _ _ _
  have hone : ∀ x p, (storeAfter twoVaults).tables.StoredParent x p →
      ∃ v, (storeAfter twoVaults).tables.OfVault v x ∧
        (storeAfter twoVaults).tables.OfVault v p := by
    intro x p hp
    rw [StoredParent, hedges, List.mem_singleton] at hp
    cases hp
    exact ⟨⟨"home"⟩, ⟨_, rfl, rfl⟩, ⟨_, rfl, rfl⟩⟩
  have hagree := views_agree hone ⟨"home"⟩ hrows
  exact ⟨hagree.1, (hagree.2 ⟨"h2"⟩ ⟨_, rfl, rfl⟩).2⟩

end Tables

end PassVault
