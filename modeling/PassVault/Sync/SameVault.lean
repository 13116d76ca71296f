import PassVault.Sync.Growth

/-!
# Stores that hold the same of a vault

Two devices may hold the same of one vault and whatever they like of others. Every query about the
vault, and about ids that no other vault has, finds the same on both; and what is stored for the
vault on both leaves them so. SHA-256 is taken to have no collisions, so a blob may be shared with
other vaults.
-/

namespace PassVault

/-- A revision of another vault has the id. -/
def Tables.Foreign (t : Tables) (vaultId : VaultId) (id : RevisionId) : Prop :=
  ∃ row, t.revisions.find id = some row ∧ row.vaultId ≠ vaultId

namespace Store

/-- The stores hold the same of the vault. -/
structure SameVault (vaultId : VaultId) (s t : Store) : Prop where
  vault : t.tables.getVault vaultId = s.tables.getVault vaultId
  rows : t.tables.rowsOf vaultId = s.tables.rowsOf vaultId
  parents : ∀ id, s.tables.OfVault vaultId id → t.tables.parentsOf id = s.tables.parentsOf id
  peerHeads : ∀ deviceId, t.tables.peerHeads.find (deviceId, vaultId) =
    s.tables.peerHeads.find (deviceId, vaultId)

/-- They are well formed, and `foreign` are the ids that other vaults have in one of them. -/
structure Apart (sha256 : Bytes → Sha256Hex) (vaultId : VaultId) (foreign : RevisionId → Prop)
    (s t : Store) : Prop where
  same : SameVault vaultId s t
  left : s.WellFormed sha256
  right : t.WellFormed sha256
  leftForeign : ∀ id, s.tables.Foreign vaultId id → foreign id
  rightForeign : ∀ id, t.tables.Foreign vaultId id → foreign id

namespace Apart

variable {sha256 : Bytes → Sha256Hex} {vaultId : VaultId} {foreign : RevisionId → Prop}
  {s t : Store}

/-! ## Queries -/

theorem mem_rows {s : Store} {id : RevisionId} {row : RevisionRow}
    (hforeign : ∀ id, s.tables.Foreign vaultId id → foreign id) (hid : ¬ foreign id)
    (hrow : s.tables.revisions.find id = some row) :
    row ∈ s.tables.rowsOf vaultId ∧ row.vaultId = vaultId := by
  have hvault : row.vaultId = vaultId := by
    by_contra hother
    exact hid (hforeign id ⟨row, hrow, hother⟩)
  exact ⟨List.mem_filter.mpr ⟨Table.mem_of_find hrow, by simpa using hvault⟩, hvault⟩

theorem find_of_mem_rows {s : Store} {row : RevisionRow}
    (hrow : row ∈ s.tables.rowsOf vaultId) : s.tables.revisions.find row.id = some row :=
  Table.find_of_mem (List.mem_filter.mp hrow).1

theorem find (h : Apart sha256 vaultId foreign s t) {id : RevisionId} (hid : ¬ foreign id) :
    t.tables.revisions.find id = s.tables.revisions.find id := by
  cases hs : s.tables.revisions.find id with
  | some row =>
    have hmem := (mem_rows h.leftForeign hid hs).1
    rw [← h.same.rows] at hmem
    have hkey : row.id = id := Table.key_of_find hs
    exact hkey ▸ find_of_mem_rows hmem
  | none =>
    cases ht : t.tables.revisions.find id with
    | none => rfl
    | some row =>
      have hmem := (mem_rows h.rightForeign hid ht).1
      rw [h.same.rows] at hmem
      have hkey : row.id = id := Table.key_of_find ht
      have hfound := find_of_mem_rows hmem
      rw [hkey, hs] at hfound
      cases hfound

theorem hasRevision (h : Apart sha256 vaultId foreign s t) {id : RevisionId}
    (hid : ¬ foreign id) : t.tables.hasRevision id = s.tables.hasRevision id := by
  rw [Tables.hasRevision, Table.has, h.find hid]
  rfl

/-- A revision that is not stored has no edges. -/
theorem parentsOf_nil {s : Store} (hwf : s.WellFormed sha256) {id : RevisionId}
    (hid : s.tables.hasRevision id = false) : s.tables.parentsOf id = [] := by
  apply List.eq_nil_iff_forall_not_mem.mpr
  intro p hp
  have hhas := (hwf.closed _ _ (Tables.mem_parentsOf.mp hp)).1
  rw [hid] at hhas
  cases hhas

theorem parentsOf (h : Apart sha256 vaultId foreign s t) {id : RevisionId} (hid : ¬ foreign id) :
    t.tables.parentsOf id = s.tables.parentsOf id := by
  cases hs : s.tables.revisions.find id with
  | some row => exact h.same.parents id ⟨row, hs, (mem_rows h.leftForeign hid hs).2⟩
  | none =>
    have hnone : s.tables.hasRevision id = false := by simp [Tables.hasRevision, Table.has, hs]
    rw [parentsOf_nil h.left hnone, parentsOf_nil h.right ((h.hasRevision hid).trans hnone)]

theorem getRevision (h : Apart sha256 vaultId foreign s t) {id : RevisionId}
    (hid : ¬ foreign id) : t.tables.getRevision id = s.tables.getRevision id := by
  rw [Tables.getRevision, Tables.getRevision, h.find hid, h.parentsOf hid]

theorem listRevisions (h : Apart sha256 vaultId foreign s t) :
    t.tables.listRevisions vaultId = s.tables.listRevisions vaultId := by
  rw [Tables.listRevisions, Tables.listRevisions, h.same.rows]
  apply List.map_congr_left
  intro row hrow
  have hrow := List.mem_mergeSort.mp hrow
  have hvault : row.vaultId = vaultId := by simpa using (List.mem_filter.mp hrow).2
  rw [h.same.parents row.id ⟨row, find_of_mem_rows hrow, hvault⟩]

theorem historySummary (h : Apart sha256 vaultId foreign s t) :
    t.tables.historySummary vaultId = s.tables.historySummary vaultId := by
  rw [Tables.historySummary, Tables.historySummary, h.listRevisions]

theorem hasVault (h : Apart sha256 vaultId foreign s t) :
    t.tables.vaults.has vaultId = s.tables.vaults.has vaultId := by
  have hvault : t.tables.vaults.find vaultId = s.tables.vaults.find vaultId := h.same.vault
  rw [Table.has, hvault]
  rfl

/-- A blob that both have is the same. -/
theorem getBlob (hsha : Function.Injective sha256) (h : Apart sha256 vaultId foreign s t)
    {hash : Sha256Hex} (hs : ∃ bytes, s.getBlob hash = some bytes)
    (ht : ∃ bytes, t.getBlob hash = some bytes) : t.getBlob hash = s.getBlob hash := by
  obtain ⟨bytes, hs⟩ := hs
  obtain ⟨bytes', ht⟩ := ht
  have heq : bytes' = bytes :=
    hsha ((h.right.hashes hash bytes' ht).trans (h.left.hashes hash bytes hs).symm)
  rw [hs, ht, heq]

/-! ## Statements -/

/-- Statements that leave revisions and edges alone, and do the same to the vault in both. -/
theorem other (h : Apart sha256 vaultId foreign s t) {tables tables' : Tables}
    (hs : (s.setTables tables).WellFormed sha256) (ht : (t.setTables tables').WellFormed sha256)
    (hrevisions : tables.revisions = s.tables.revisions ∧
      tables'.revisions = t.tables.revisions)
    (hparents : tables.revisionParents = s.tables.revisionParents ∧
      tables'.revisionParents = t.tables.revisionParents)
    (hvault : tables'.getVault vaultId = tables.getVault vaultId)
    (hheads : ∀ deviceId, tables'.peerHeads.find (deviceId, vaultId) =
      tables.peerHeads.find (deviceId, vaultId)) :
    Apart sha256 vaultId foreign (s.setTables tables) (t.setTables tables') := by
  refine ⟨⟨hvault, ?_, fun id hid => ?_, hheads⟩, hs, ht, fun id hid => ?_, fun id hid => ?_⟩
  · have hrows := h.same.rows
    simpa [Store.setTables, Tables.rowsOf, hrevisions] using hrows
  · have hid : s.tables.OfVault vaultId id := by
      simpa [Store.setTables, Tables.OfVault, hrevisions] using hid
    simpa [Store.setTables, Tables.parentsOf, hparents] using h.same.parents id hid
  · exact h.leftForeign id (by simpa [Store.setTables, Tables.Foreign, hrevisions] using hid)
  · exact h.rightForeign id (by simpa [Store.setTables, Tables.Foreign, hrevisions] using hid)

theorem saveVault (h : Apart sha256 vaultId foreign s t) {vault : Vault}
    (hhead : vault.headRevisionId = none) :
    Apart sha256 vaultId foreign (s.setTables (s.tables.saveVault vault))
      (t.setTables (t.tables.saveVault vault)) := by
  have hempty : ∀ u : Store, ∀ head, vault.headRevisionId = some head →
      u.tables.OfVault vault.id head := fun u head hsome => by
    rw [hhead] at hsome
    cases hsome
  refine h.other (h.left.saveVault (hempty s)) (h.right.saveVault (hempty t)) ⟨rfl, rfl⟩ ⟨rfl, rfl⟩
    ?_ h.same.peerHeads
  have hvault : t.tables.vaults.find vaultId = s.tables.vaults.find vaultId := h.same.vault
  rw [Tables.getVault, Tables.getVault, Tables.saveVault, Tables.saveVault, Table.find_upsert,
    Table.find_upsert, hvault]

/-- A peer's head is recorded in both or in neither. -/
theorem recordPeerHead (h : Apart sha256 vaultId foreign s t) {row : PeerHeadRow}
    (hid : row.vaultId = vaultId) :
    (Tables.recordPeerHead row t.tables).map (fun _ => ()) =
        (Tables.recordPeerHead row s.tables).map (fun _ => ()) ∧
      ∀ tables tables', Tables.recordPeerHead row s.tables = .ok tables →
        Tables.recordPeerHead row t.tables = .ok tables' →
        Apart sha256 vaultId foreign (s.setTables tables) (t.setTables tables') := by
  have hpair : t.tables.peerHeads.find row.pair = s.tables.peerHeads.find row.pair := by
    rw [PeerHeadRow.pair, hid]
    exact h.same.peerHeads row.deviceId
  have hhas : t.tables.peerHeads.has row.pair = s.tables.peerHeads.has row.pair := by
    rw [Table.has, hpair]
    rfl
  have hvault : t.tables.vaults.has row.vaultId = s.tables.vaults.has row.vaultId :=
    hid ▸ h.hasVault
  rw [Tables.recordPeerHead, Tables.recordPeerHead, hhas, hvault]
  split
  · refine ⟨rfl, fun tables tables' hs ht => ?_⟩
    cases hs
    cases ht
    refine h.other (h.left.other rfl rfl rfl) (h.right.other rfl rfl rfl) ⟨rfl, rfl⟩ ⟨rfl, rfl⟩
      h.same.vault fun deviceId => ?_
    refine (Table.find_upsert _ _ _ _ _).trans (Eq.trans ?_ (Table.find_upsert _ _ _ _ _).symm)
    rw [h.same.peerHeads deviceId]
  · exact ⟨rfl, fun _ _ hs => by cases hs⟩

theorem putBlob (h : Apart sha256 vaultId foreign s t) (bytes : Bytes) :
    Apart sha256 vaultId foreign (s.putBlob sha256 bytes) (t.putBlob sha256 bytes) :=
  ⟨⟨h.same.vault, h.same.rows, h.same.parents, h.same.peerHeads⟩, h.left.putBlob bytes,
    h.right.putBlob bytes, h.leftForeign, h.rightForeign⟩

theorem checkParents (h : Apart sha256 vaultId foreign s t) (id : RevisionId)
    {parentIds : List RevisionId} (hparents : ∀ p ∈ parentIds, ¬ foreign p) :
    t.tables.checkParents id parentIds = s.tables.checkParents id parentIds := by
  induction parentIds with
  | nil => rfl
  | cons parentId rest ih =>
    obtain ⟨hparent, hrest⟩ := List.forall_mem_cons.mp hparents
    rw [Tables.checkParents, Tables.checkParents, h.hasRevision hparent, ih hrest]

theorem rowsOf_insert {u : Tables} {row : RevisionRow} :
    ({ u with revisions := u.revisions.insert row } : Tables).rowsOf vaultId =
      if u.revisions.find row.id = none then
        u.rowsOf vaultId ++ [row].filter (·.vaultId = vaultId) else u.rowsOf vaultId := by
  simp only [Tables.rowsOf, Table.rows_insert]
  split
  · rw [List.filter_append]
  · rfl

/-- A saved revision of the vault is foreign to neither. -/
theorem foreign_insert {u : Store} (hforeign : ∀ id, u.tables.Foreign vaultId id → foreign id)
    {revision : Revision} (hvault : revision.vaultId = vaultId) {id : RevisionId}
    {row : RevisionRow} (hrow : (u.tables.revisions.insert revision.row).find id = some row)
    (hother : row.vaultId ≠ vaultId) : foreign id := by
  rw [Table.find_insert] at hrow
  split at hrow
  · rename_i hkey
    cases hold : u.tables.revisions.find id with
    | some old =>
      rw [hold] at hrow
      cases hrow
      exact hforeign id ⟨_, hold, hother⟩
    | none =>
      rw [hold] at hrow
      cases hrow
      exact absurd hvault hother
  · exact hforeign id ⟨row, hrow, hother⟩

/-- A revision of the vault is saved in both or in neither. -/
theorem saveRevision (h : Apart sha256 vaultId foreign s t) {revision : Revision}
    (hvault : revision.vaultId = vaultId) (hid : ¬ foreign revision.id)
    (hparents : ∀ p ∈ revision.parentIds, ¬ foreign p)
    (hs : ∃ bytes, s.getBlob revision.hash = some bytes)
    (ht : ∃ bytes, t.getBlob revision.hash = some bytes) :
    (Tables.saveRevision revision t.tables).map (fun _ => ()) =
        (Tables.saveRevision revision s.tables).map (fun _ => ()) ∧
      ∀ tables tables', Tables.saveRevision revision s.tables = .ok tables →
        Tables.saveRevision revision t.tables = .ok tables' →
        Apart sha256 vaultId foreign (s.setTables tables) (t.setTables tables') := by
  constructor
  · have hhas : t.tables.revisions.has revision.id = s.tables.revisions.has revision.id :=
      h.hasRevision hid
    have hhasVault : t.tables.vaults.has revision.vaultId = s.tables.vaults.has revision.vaultId :=
      hvault ▸ h.hasVault
    rw [Tables.saveRevision, Tables.saveRevision, h.checkParents revision.id hparents,
      Tables.insertRevision, Tables.insertRevision, Revision.row_id, Revision.row_vaultId, hhas,
      hhasVault]
    cases s.tables.checkParents revision.id revision.parentIds with
    | error e => rfl
    | ok u =>
      by_cases hok : s.tables.revisions.has revision.id = true ∨
          s.tables.vaults.has revision.vaultId = true
      · simp only [if_pos hok]
        rfl
      · simp only [if_neg hok]
  · intro tables tables' hsave hsave'
    have hleft := h.left.saveRevision hs hsave
    have hright := h.right.saveRevision ht hsave'
    obtain ⟨-, -, rfl⟩ := Tables.saveRevision_ok hsave
    obtain ⟨-, -, rfl⟩ := Tables.saveRevision_ok hsave'
    refine ⟨⟨h.same.vault, ?_, fun id hof => ?_, h.same.peerHeads⟩, hleft, hright,
      fun id hother => ?_, fun id hother => ?_⟩
    · refine (rowsOf_insert).trans (Eq.trans ?_ (rowsOf_insert).symm)
      rw [Revision.row_id, h.find hid, h.same.rows]
    · show (Tables.insertParents _ _ { t.tables with revisions := _ }).parentsOf id =
        (Tables.insertParents _ _ { s.tables with revisions := _ }).parentsOf id
      by_cases hsame : id = revision.id
      · rw [hsame, Tables.parentsOf_insertParents, Tables.parentsOf_insertParents]
        exact congrArg (List.foldl _ · _) (h.parentsOf hid)
      · rw [Tables.parentsOf_insertParents_of_ne hsame, Tables.parentsOf_insertParents_of_ne hsame]
        obtain ⟨row, hrow, hof⟩ := hof
        have hold : s.tables.revisions.find id = some row := by
          have hrow : (s.tables.revisions.insert revision.row).find id = some row := hrow
          rwa [Table.find_insert, if_neg fun heq => hsame heq.symm] at hrow
        exact h.same.parents id ⟨row, hold, hof⟩
    · obtain ⟨row, hrow, hother⟩ := hother
      exact foreign_insert h.leftForeign hvault hrow hother
    · obtain ⟨row, hrow, hother⟩ := hother
      exact foreign_insert h.rightForeign hvault hrow hother

end Apart

end Store

end PassVault
