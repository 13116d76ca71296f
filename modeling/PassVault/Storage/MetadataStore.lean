import PassVault.Core.Dag
import PassVault.Lib.Table

/-!
# The metadata tables

The tables and statements of `packages/storage-sql/src/schema.ts` and
`sqliteMetadataStore.ts` that the engine and the services use. Both drivers open the database
with `PRAGMA foreign_keys = ON`, so an insert that references a missing vault fails. The rows a
query leaves unordered come in insertion order.
-/

namespace PassVault

/-- A row of `revisions`; the parents of a revision are in a table of their own. -/
structure RevisionRow where
  id : RevisionId
  vaultId : VaultId
  hash : Sha256Hex
  sizeBytes : Nat
  createdAt : Nat
  originDeviceId : Option DeviceId
  operation : RevisionOperation
  message : Option String
deriving DecidableEq, Repr

def Revision.row (revision : Revision) : RevisionRow where
  id := revision.id
  vaultId := revision.vaultId
  hash := revision.hash
  sizeBytes := revision.sizeBytes
  createdAt := revision.createdAt
  originDeviceId := revision.originDeviceId
  operation := revision.operation
  message := revision.message

@[simp] theorem Revision.row_id (revision : Revision) : revision.row.id = revision.id := rfl

@[simp] theorem Revision.row_vaultId (revision : Revision) :
    revision.row.vaultId = revision.vaultId := rfl

structure ParentRow where
  revisionId : RevisionId
  parentId : RevisionId
deriving DecidableEq, Repr

structure PeerHeadRow where
  deviceId : DeviceId
  vaultId : VaultId
  headRevisionId : RevisionId
  seenAt : Nat
deriving DecidableEq, Repr

structure SettingRow where
  key : String
  value : String
deriving DecidableEq, Repr

def PeerHeadRow.pair (row : PeerHeadRow) : DeviceId × VaultId := (row.deviceId, row.vaultId)

/-- The database. -/
structure Tables where
  vaults : Table Vault.id
  revisions : Table RevisionRow.id
  revisionParents : Table (id : ParentRow → ParentRow)
  headEvents : List HeadRevisionEvent
  conflicts : Table Conflict.id
  peerHeads : Table PeerHeadRow.pair
  settings : Table SettingRow.key

namespace Tables

def empty : Tables where
  vaults := .empty _
  revisions := .empty _
  revisionParents := .empty _
  headEvents := []
  conflicts := .empty _
  peerHeads := .empty _
  settings := .empty _

/-- What SQLite reports for a row that references no vault. -/
def foreignKeyFailure : Failure := .sql "FOREIGN KEY constraint failed"

/-! ## Vaults -/

def getVault (t : Tables) (vaultId : VaultId) : Option Vault := t.vaults.find vaultId

def listVaults (t : Tables) : List Vault :=
  t.vaults.rows.mergeSort fun v w => v.createdAt ≤ w.createdAt

/-- `INSERT INTO vaults … ON CONFLICT(id) DO UPDATE`: the creation date stays. -/
def saveVault (vault : Vault) (t : Tables) : Tables :=
  { t with
    vaults := t.vaults.upsert vault
      (fun row => { row with
        name := vault.name, kdbxPath := vault.kdbxPath, headRevisionId := vault.headRevisionId })
      fun _ => rfl }

/-! ## Revisions -/

def parentsOf (t : Tables) (revisionId : RevisionId) : List RevisionId :=
  (t.revisionParents.rows.filter (·.revisionId = revisionId)).map (·.parentId)

def toRevision (row : RevisionRow) (parentIds : List RevisionId) : Revision where
  id := row.id
  vaultId := row.vaultId
  hash := row.hash
  sizeBytes := row.sizeBytes
  createdAt := row.createdAt
  originDeviceId := row.originDeviceId
  parentIds := parentIds
  operation := row.operation
  message := row.message

def getRevision (t : Tables) (revisionId : RevisionId) : Option Revision :=
  (t.revisions.find revisionId).map fun row => toRevision row (t.parentsOf revisionId)

def hasRevision (t : Tables) (revisionId : RevisionId) : Bool := t.revisions.has revisionId

def rowsOf (t : Tables) (vaultId : VaultId) : List RevisionRow :=
  t.revisions.rows.filter (·.vaultId = vaultId)

def listRevisions (t : Tables) (vaultId : VaultId) : List Revision :=
  ((t.rowsOf vaultId).mergeSort fun r r' => r'.createdAt ≤ r.createdAt).map fun row =>
    toRevision row (t.parentsOf row.id)

/-- The assertions of `saveRevision`. -/
def checkParents (t : Tables) (revisionId : RevisionId) : List RevisionId → Except Failure Unit
  | [] => .ok ()
  | parentId :: rest => do
    assert (t.hasRevision parentId)
      ("cannot store revision " ++ revisionId.value ++ ": parent " ++ parentId.value ++
        " is not stored yet")
    t.checkParents revisionId rest

/-- `INSERT INTO revisions … ON CONFLICT(id) DO NOTHING`. -/
def insertRevision (row : RevisionRow) (t : Tables) : Except Failure Tables :=
  if t.revisions.has row.id ∨ t.vaults.has row.vaultId then
    .ok { t with revisions := t.revisions.insert row }
  else .error foreignKeyFailure

/-- `INSERT INTO revision_parents … ON CONFLICT DO NOTHING` for each parent. -/
def insertParents (revisionId : RevisionId) (parentIds : List RevisionId) (t : Tables) : Tables :=
  { t with
    revisionParents := parentIds.foldl (fun rows parentId => rows.insert ⟨revisionId, parentId⟩)
      t.revisionParents }

/-- Persist a revision and its DAG edges. A known id keeps its row but takes the edges. -/
def saveRevision (revision : Revision) (t : Tables) : Except Failure Tables := do
  t.checkParents revision.id revision.parentIds
  let t ← t.insertRevision revision.row
  return t.insertParents revision.id revision.parentIds

def loadGraph (t : Tables) (vaultId : VaultId) : RevisionGraph :=
  buildGraph ((t.rowsOf vaultId).map fun row => ⟨row.id, t.parentsOf row.id⟩)

/-! ## Head events, conflicts and peers -/

def appendHeadEvent (event : HeadRevisionEvent) (t : Tables) : Except Failure Tables :=
  if t.vaults.has event.vaultId then .ok { t with headEvents := t.headEvents ++ [event] }
  else .error foreignKeyFailure

def saveConflict (conflict : Conflict) (t : Tables) : Except Failure Tables :=
  if t.conflicts.has conflict.id ∨ t.vaults.has conflict.vaultId then
    .ok { t with
      conflicts := t.conflicts.upsert conflict
        (fun row => { row with
          status := conflict.status, decision := conflict.decision
          resolvedAt := conflict.resolvedAt })
        fun _ => rfl }
  else .error foreignKeyFailure

def listOpenConflicts (t : Tables) (vaultId : VaultId) : List Conflict :=
  (t.conflicts.rows.filter fun c => c.vaultId = vaultId ∧ c.status = .open).mergeSort
    fun c c' => c'.createdAt ≤ c.createdAt

def recordPeerHead (row : PeerHeadRow) (t : Tables) : Except Failure Tables :=
  if t.peerHeads.has row.pair ∨ t.vaults.has row.vaultId then
    .ok { t with
      peerHeads := t.peerHeads.upsert row
        (fun old => { old with headRevisionId := row.headRevisionId, seenAt := row.seenAt })
        fun _ => rfl }
  else .error foreignKeyFailure

/-! ## Settings -/

def setting (t : Tables) (key : String) : Option String := (t.settings.find key).map (·.value)

def saveSetting (key value : String) (t : Tables) : Tables :=
  { t with settings := t.settings.upsert ⟨key, value⟩ (fun row => { row with value }) fun _ => rfl }

def deleteSetting (key : String) (t : Tables) : Tables :=
  { t with settings := t.settings.delete key }

/-! ## What the statements do to the history -/

/-- The stored parent relation. -/
def StoredParent (t : Tables) (child parent : RevisionId) : Prop :=
  (⟨child, parent⟩ : ParentRow) ∈ t.revisionParents.rows

instance (t : Tables) (child parent : RevisionId) : Decidable (t.StoredParent child parent) :=
  inferInstanceAs (Decidable (_ ∈ _))

theorem mem_parentsOf {t : Tables} {x p : RevisionId} : p ∈ t.parentsOf x ↔ t.StoredParent x p := by
  simp only [parentsOf, List.mem_map, List.mem_filter, decide_eq_true_eq, StoredParent]
  constructor
  · rintro ⟨⟨x', p'⟩, ⟨hmem, rfl⟩, rfl⟩
    exact hmem
  · exact fun h => ⟨_, ⟨h, rfl⟩, rfl⟩

theorem getRevision_eq_some {t : Tables} {id : RevisionId} {revision : Revision} :
    t.getRevision id = some revision ↔
      ∃ row, t.revisions.find id = some row ∧ toRevision row (t.parentsOf id) = revision := by
  simp [getRevision, Option.map_eq_some_iff]

theorem id_of_getRevision {t : Tables} {id : RevisionId} {revision : Revision}
    (h : t.getRevision id = some revision) : revision.id = id := by
  obtain ⟨row, hrow, rfl⟩ := getRevision_eq_some.mp h
  have hkey : row.id = id := Table.key_of_find hrow
  exact hkey

theorem checkParents_ok {t : Tables} {id : RevisionId} {parentIds : List RevisionId} {u : Unit} :
    t.checkParents id parentIds = .ok u ↔ ∀ p ∈ parentIds, t.hasRevision p = true := by
  induction parentIds with
  | nil => simp [checkParents]
  | cons parentId rest ih =>
    simp only [checkParents, bind_eq_ok, assert_eq_ok, exists_and_left, exists_const, ih,
      List.forall_mem_cons]

theorem storedParent_insertParents {t : Tables} {id : RevisionId} {parentIds : List RevisionId}
    {x p : RevisionId} :
    (t.insertParents id parentIds).StoredParent x p ↔
      t.StoredParent x p ∨ (x = id ∧ p ∈ parentIds) := by
  simp only [StoredParent, insertParents]
  generalize t.revisionParents = rows
  induction parentIds generalizing rows with
  | nil => simp
  | cons parentId rest ih =>
    rw [List.foldl_cons, ih]
    constructor
    · rintro (h | ⟨rfl, h⟩)
      · rcases Table.mem_insert h with h | ⟨heq, -⟩
        · exact Or.inl h
        · cases heq
          exact Or.inr ⟨rfl, List.mem_cons_self⟩
      · exact Or.inr ⟨rfl, List.mem_cons_of_mem _ h⟩
    · rintro (h | ⟨rfl, h⟩)
      · exact Or.inl (Table.mem_insert_of_mem h)
      · rcases List.mem_cons.mp h with rfl | h
        · obtain ⟨row, hrow⟩ := Table.has_iff.mp (Table.has_insert rows ⟨x, p⟩)
          have hmem := Table.mem_of_find hrow
          rw [show row = ⟨x, p⟩ from Table.key_of_find hrow] at hmem
          exact Or.inl hmem
        · exact Or.inr ⟨rfl, h⟩

theorem parentsOf_insertParents_of_ne {t : Tables} {id x : RevisionId} (hx : x ≠ id)
    (parentIds : List RevisionId) : (t.insertParents id parentIds).parentsOf x = t.parentsOf x := by
  simp only [parentsOf, insertParents]
  generalize t.revisionParents = rows
  induction parentIds generalizing rows with
  | nil => rfl
  | cons parentId rest ih =>
    have hne : id ≠ x := fun h => hx h.symm
    rw [List.foldl_cons, ih, Table.rows_insert]
    split <;> simp [hne]

/-- Parents are appended, the ones that are there left out. -/
theorem parentsOf_insertParents (t : Tables) (id : RevisionId) (parentIds : List RevisionId) :
    (t.insertParents id parentIds).parentsOf id =
      parentIds.foldl (fun ids parentId => if parentId ∈ ids then ids else ids ++ [parentId])
        (t.parentsOf id) := by
  simp only [parentsOf, insertParents]
  generalize t.revisionParents = rows
  induction parentIds generalizing rows with
  | nil => rfl
  | cons parentId rest ih =>
    rw [List.foldl_cons, List.foldl_cons, ih]
    congr 1
    have hrows : (rows.insert ⟨id, parentId⟩).rows =
        if rows.find ⟨id, parentId⟩ = none then rows.rows ++ [⟨id, parentId⟩] else rows.rows :=
      Table.rows_insert rows ⟨id, parentId⟩
    have hmem : rows.find ⟨id, parentId⟩ = none ↔
        parentId ∉ (rows.rows.filter (·.revisionId = id)).map (·.parentId) := by
      rw [Table.find_eq_none, List.map_id, not_iff_not]
      constructor
      · exact fun h => List.mem_map.mpr ⟨_, List.mem_filter.mpr ⟨h, by simp⟩, rfl⟩
      · intro h
        obtain ⟨⟨x, p⟩, hrow, rfl⟩ := List.mem_map.mp h
        obtain ⟨hstored, hx⟩ := List.mem_filter.mp hrow
        have hx : x = id := by simpa using hx
        exact hx ▸ hstored
    rw [hrows]
    by_cases hnew : rows.find ⟨id, parentId⟩ = none
    · rw [if_pos hnew, if_neg (hmem.mp hnew)]
      simp
    · rw [if_neg hnew, if_pos (not_not.mp fun h => hnew (hmem.mpr h))]

/-- What a successful `saveRevision` found and left. -/
theorem saveRevision_ok {t t' : Tables} {revision : Revision}
    (h : saveRevision revision t = .ok t') :
    (∀ p ∈ revision.parentIds, t.hasRevision p = true) ∧
      (t.revisions.has revision.id = true ∨ t.vaults.has revision.vaultId = true) ∧
      t' = ({ t with revisions := t.revisions.insert revision.row } : Tables).insertParents
        revision.id revision.parentIds := by
  obtain ⟨_, hparents, h⟩ := bind_eq_ok.mp h
  obtain ⟨mid, hinsert, h⟩ := bind_eq_ok.mp h
  cases h
  rw [insertRevision] at hinsert
  split at hinsert
  · rename_i hvault
    cases hinsert
    exact ⟨checkParents_ok.mp hparents, hvault, rfl⟩
  · cases hinsert

theorem storedParent_saveRevision {t t' : Tables} {revision : Revision}
    (h : saveRevision revision t = .ok t') {x p : RevisionId} :
    t'.StoredParent x p ↔ t.StoredParent x p ∨ (x = revision.id ∧ p ∈ revision.parentIds) := by
  obtain ⟨-, -, rfl⟩ := saveRevision_ok h
  exact storedParent_insertParents

theorem saveRevision_of_stored {t : Tables} {revision : Revision}
    (hparents : ∀ p ∈ revision.parentIds, t.hasRevision p = true)
    (hvault : t.vaults.has revision.vaultId = true) :
    saveRevision revision t =
      .ok (({ t with revisions := t.revisions.insert revision.row } : Tables).insertParents
        revision.id revision.parentIds) := by
  have hcheck : t.checkParents revision.id revision.parentIds = .ok () :=
    checkParents_ok.mpr hparents
  rw [saveRevision, hcheck, insertRevision]
  simp only [Revision.row_vaultId, hvault, or_true, if_true]
  rfl

/-! ## Growth

What happens to the history when rows are only added: no vault, revision or edge is lost and no
revision row changes. -/

/-- `t'` holds every vault, revision row and edge of `t`. -/
structure Grows (t t' : Tables) : Prop where
  vaults : ∀ id, t.vaults.has id = true → t'.vaults.has id = true
  revisions : ∀ id row, t.revisions.find id = some row → t'.revisions.find id = some row
  parents : ∀ x p, t.StoredParent x p → t'.StoredParent x p

theorem Grows.refl (t : Tables) : Grows t t := ⟨fun _ h => h, fun _ _ h => h, fun _ _ h => h⟩

theorem Grows.trans {t t' t'' : Tables} (h : Grows t t') (h' : Grows t' t'') : Grows t t'' :=
  ⟨fun id hid => h'.vaults id (h.vaults id hid),
    fun id row hrow => h'.revisions id row (h.revisions id row hrow),
    fun x p hp => h'.parents x p (h.parents x p hp)⟩

theorem Grows.hasRevision {t t' : Tables} (h : Grows t t') {id : RevisionId}
    (hid : t.hasRevision id = true) : t'.hasRevision id = true := by
  obtain ⟨row, hrow⟩ := Table.has_iff.mp hid
  exact Table.has_iff.mpr ⟨row, h.revisions id row hrow⟩

theorem grows_saveVault (vault : Vault) (t : Tables) : Grows t (t.saveVault vault) :=
  ⟨fun _ h => Table.has_upsert_of_has h, fun _ _ h => h, fun _ _ h => h⟩

theorem has_saveVault (vault : Vault) (t : Tables) :
    (t.saveVault vault).vaults.has vault.id = true := by
  rw [Table.has_iff]
  exact ⟨_, by rw [saveVault, Table.find_upsert, if_pos rfl]⟩

theorem grows_saveRevision {t t' : Tables} {revision : Revision}
    (h : saveRevision revision t = .ok t') : Grows t t' := by
  obtain ⟨-, -, rfl⟩ := saveRevision_ok h
  exact ⟨fun _ h => h, fun _ _ h => Table.find_insert_of_find h, fun x p hp =>
    storedParent_insertParents.mpr (Or.inl hp)⟩

theorem grows_appendHeadEvent {t t' : Tables} {event : HeadRevisionEvent}
    (h : appendHeadEvent event t = .ok t') : Grows t t' := by
  rw [appendHeadEvent] at h
  split at h <;> cases h
  exact ⟨fun _ h => h, fun _ _ h => h, fun _ _ h => h⟩

theorem grows_saveConflict {t t' : Tables} {conflict : Conflict}
    (h : saveConflict conflict t = .ok t') : Grows t t' := by
  rw [saveConflict] at h
  split at h <;> cases h
  exact ⟨fun _ h => h, fun _ _ h => h, fun _ _ h => h⟩

theorem grows_recordPeerHead {t t' : Tables} {row : PeerHeadRow}
    (h : recordPeerHead row t = .ok t') : Grows t t' := by
  rw [recordPeerHead] at h
  split at h <;> cases h
  exact ⟨fun _ h => h, fun _ _ h => h, fun _ _ h => h⟩

end Tables

end PassVault
