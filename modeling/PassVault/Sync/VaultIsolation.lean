import PassVault.Core.DagUnion
import PassVault.Sync.StoredHistory

/-!
# Vault isolation

Parents are only required to be stored, in whatever vault. As long as calls name parents of the
vault they work on, the graph and the summary of a vault define every parent they mention.
-/

namespace PassVault

namespace Tables

/-- The nodes that rows of the vault give a graph. -/
def nodesOf (t : Tables) (rows : List RevisionRow) : List RevisionNode :=
  rows.map fun row => ⟨row.id, t.parentsOf row.id⟩

theorem get_nodesOf {t : Tables} {rows : List RevisionRow} {id : RevisionId} :
    (buildGraph (t.nodesOf rows)).get id =
      if id ∈ rows.map (·.id) then some ⟨id, t.parentsOf id⟩ else none := by
  rw [get_buildGraph]
  split
  · rename_i hmem
    obtain ⟨row, hrow, rfl⟩ := List.mem_map.mp hmem
    cases hfind : (t.nodesOf rows).reverse.find? (·.id = row.id) with
    | none =>
      rw [List.find?_eq_none] at hfind
      have hnode : (⟨row.id, t.parentsOf row.id⟩ : RevisionNode) ∈ (t.nodesOf rows).reverse :=
        List.mem_reverse.mpr (List.mem_map.mpr ⟨row, hrow, rfl⟩)
      simpa using hfind _ hnode
    | some node =>
      obtain ⟨row', -, rfl⟩ :=
        List.mem_map.mp (List.mem_reverse.mp (List.mem_of_find?_eq_some hfind))
      have hid : row'.id = row.id := by simpa using List.find?_some hfind
      rw [hid]
  · rename_i hnot
    rw [List.find?_eq_none]
    intro node hnode hid
    obtain ⟨row, hrow, rfl⟩ := List.mem_map.mp (List.mem_reverse.mp hnode)
    exact hnot (List.mem_map.mpr ⟨row, hrow, by simpa using hid⟩)

theorem mem_rowsOf {t : Tables} {vaultId : VaultId} {id : RevisionId} :
    id ∈ (t.rowsOf vaultId).map (·.id) ↔ t.OfVault vaultId id := by
  simp only [rowsOf, List.mem_map, List.mem_filter, decide_eq_true_eq]
  constructor
  · rintro ⟨row, ⟨hrow, hvault⟩, rfl⟩
    exact ⟨row, Table.find_of_mem hrow, hvault⟩
  · rintro ⟨row, hrow, hvault⟩
    exact ⟨row, ⟨Table.mem_of_find hrow, hvault⟩, Table.key_of_find hrow⟩

theorem summaryNodes_historySummary (t : Tables) (vaultId : VaultId) :
    summaryNodes (t.historySummary vaultId) =
      t.nodesOf ((t.rowsOf vaultId).mergeSort fun r r' => r'.createdAt ≤ r.createdAt) := by
  simp [summaryNodes, historySummary, listRevisions, nodesOf, toRevision, Function.comp_def]

/-- A graph of a vault, in whatever order its rows come. -/
structure GraphOf (t : Tables) (vaultId : VaultId) (graph : RevisionGraph) : Prop where
  has : ∀ id, graph.has id = true ↔ t.OfVault vaultId id
  parent : ∀ x p, Parent graph x p ↔ t.OfVault vaultId x ∧ t.StoredParent x p

theorem graphOf_nodesOf {t : Tables} {vaultId : VaultId} {rows : List RevisionRow}
    (hrows : ∀ id, id ∈ rows.map (·.id) ↔ t.OfVault vaultId id) :
    t.GraphOf vaultId (buildGraph (t.nodesOf rows)) := by
  refine ⟨fun id => ?_, fun x p => ?_⟩
  · rw [RevisionGraph.has, get_nodesOf, ← hrows]
    split <;> simp_all
  · rw [Parent, get_nodesOf, ← hrows, ← mem_parentsOf]
    split <;> simp_all

theorem graphOf_loadGraph (t : Tables) (vaultId : VaultId) :
    t.GraphOf vaultId (t.loadGraph vaultId) := graphOf_nodesOf fun _ => mem_rowsOf

theorem graphOf_historySummary (t : Tables) (vaultId : VaultId) :
    t.GraphOf vaultId (buildGraph (summaryNodes (t.historySummary vaultId))) := by
  rw [summaryNodes_historySummary]
  apply graphOf_nodesOf
  intro id
  rw [← mem_rowsOf]
  simp

theorem GraphOf.parentClosed {t : Tables} {vaultId : VaultId} {graph : RevisionGraph}
    (h : t.GraphOf vaultId graph) (hisolated : SyncEngine.Isolated t) : graph.ParentClosed := by
  intro x p hp
  obtain ⟨hx, hp⟩ := (h.parent x p).mp hp
  exact (h.has p).mpr (hisolated x p hp vaultId hx)

end Tables

namespace Runs

variable {deps : EngineDeps}

/-- In every run whose merges and ingests name parents of the vault they work on, the parents of
a revision belong to its vault, and the graph and the summary of a vault define every parent they
mention. -/
theorem isolated {s : Store} (hs : Runs deps Operation.StaysInVault Store.empty s) :
    (∀ x p vaultId, s.tables.StoredParent x p → s.tables.OfVault vaultId x →
      s.tables.OfVault vaultId p) ∧
      ∀ vaultId, (s.tables.loadGraph vaultId).ParentClosed ∧
        (buildGraph (summaryNodes (s.tables.historySummary vaultId))).ParentClosed := by
  have hisolated : SyncEngine.Isolated s.tables :=
    (hs.history (fun _ _ _ h => h) empty_history).1.2.2 trivial
  exact ⟨fun x p vaultId hp hx => hisolated x p hp vaultId hx, fun vaultId =>
    ⟨(Tables.graphOf_loadGraph _ vaultId).parentClosed hisolated,
      (Tables.graphOf_historySummary _ vaultId).parentClosed hisolated⟩⟩

theorem isolated_twoVaults : ((storeAfter twoVaults).tables.loadGraph ⟨"home"⟩).ParentClosed := by
  have hstays : ∀ operation ∈ twoVaults, ∀ s, operation.StaysInVault s := by
    intro operation hmem s
    simp only [twoVaults, List.mem_cons, List.not_mem_nil, or_false] at hmem
    rcases hmem with rfl | rfl | rfl <;> trivial
  exact ((isolated (show Runs plainDeps _ _ _ from of_runAll twoVaults hstays rfl)).2 ⟨"home"⟩).1

/-- A merge in one vault that brings in a revision of the other. -/
def crossVaultMerge : List Operation :=
  twoVaults ++ [.merge ⟨⟨"h3"⟩, 4⟩ ⟨"home"⟩ ⟨"h2"⟩ [⟨"w1"⟩] none]

/-- The edge leaves the vault, and its graph and summary name a parent they do not define. -/
theorem merge_leaves_vault : ∃ s, Runs plainDeps anyCall .empty s ∧
    s.tables.OfVault ⟨"home"⟩ ⟨"h3"⟩ ∧ s.tables.StoredParent ⟨"h3"⟩ ⟨"w1"⟩ ∧
    ¬ s.tables.OfVault ⟨"home"⟩ ⟨"w1"⟩ ∧ ¬ (s.tables.loadGraph ⟨"home"⟩).ParentClosed ∧
    ¬ (buildGraph (summaryNodes (s.tables.historySummary ⟨"home"⟩))).ParentClosed := by
  have hruns : Runs plainDeps anyCall .empty (storeAfter crossVaultMerge) :=
    of_runAll crossVaultMerge (fun _ _ _ => trivial) rfl
  have hmerged : (storeAfter crossVaultMerge).tables.OfVault ⟨"home"⟩ ⟨"h3"⟩ := ⟨_, rfl, rfl⟩
  have hedge : (storeAfter crossVaultMerge).tables.StoredParent ⟨"h3"⟩ ⟨"w1"⟩ := by decide
  have hleaves : ¬ (storeAfter crossVaultMerge).tables.OfVault ⟨"home"⟩ ⟨"w1"⟩ := by
    rintro ⟨row, hrow, hvault⟩
    cases hrow
    exact absurd hvault (by decide)
  have hopen : ∀ graph, (storeAfter crossVaultMerge).tables.GraphOf ⟨"home"⟩ graph →
      ¬ graph.ParentClosed := fun graph hgraph hclosed =>
    hleaves ((hgraph.has _).mp (hclosed _ _ ((hgraph.parent _ _).mpr ⟨hmerged, hedge⟩)))
  exact ⟨_, hruns, hmerged, hedge, hleaves, hopen _ (Tables.graphOf_loadGraph _ _),
    hopen _ (Tables.graphOf_historySummary _ _)⟩

end Runs

end PassVault
