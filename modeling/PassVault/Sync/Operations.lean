import PassVault.Lib.Journal
import PassVault.Storage.FileBlobStore
import PassVault.Sync.StoredHistory

/-!
# What the operations do to the disk

The operations of `packages/sync/src/engine.ts` over `FileBlobStore` and `SqliteMetadataStore`, one
file-system step and one statement at a time. They run one after the other, so what an operation
reads is what it finds when it starts.
-/

namespace PassVault

open Journal

/-- The statements that write, and the `SELECT` of which `saveRevision` asserts the result. -/
inductive SqlStatement where
  | requireParent (revisionId parentId : RevisionId)
  /-- `INSERT INTO revisions` of the row of a revision. -/
  | insertRevision (revision : Revision)
  | insertParent (revisionId parentId : RevisionId)
  | saveVault (vault : Vault)
  | appendHeadEvent (event : HeadRevisionEvent)
deriving DecidableEq, Repr

/-- The tables, and the parents that the call which stored a revision was given. -/
structure Annals where
  tables : Tables
  given : RevisionId → Option (List RevisionId)

namespace Annals

def empty : Annals := ⟨.empty, fun _ => none⟩

/-- The row of a revision has been inserted. A known id keeps its row, and its parents. -/
def created (revision : Revision) (tables : Tables) (d : Annals) : Annals where
  tables := tables
  given :=
    if d.tables.hasRevision revision.id then d.given
    else Function.update d.given revision.id (some revision.parentIds)

def exec : SqlStatement → Annals → Except Failure Annals
  | .requireParent revisionId parentId, d => do
    d.tables.checkParents revisionId [parentId]
    return d
  | .insertRevision revision, d => do
    let tables ← d.tables.insertRevision revision.row
    return d.created revision tables
  | .insertParent revisionId parentId, d =>
    .ok { d with tables := d.tables.insertParents revisionId [parentId] }
  | .saveVault vault, d => .ok { d with tables := d.tables.saveVault vault }
  | .appendHeadEvent event, d => do
    let tables ← d.tables.appendHeadEvent event
    return { d with tables }

end Annals

/-- What an operation puts first, and what it does to the database once that has returned. -/
structure Plan where
  put : Option Bytes
  script : List (Instr SqlStatement)

namespace Plan

/-- The operation returns or throws before it writes anything. -/
def nothing : Plan := ⟨none, []⟩

def saveRevision (revision : Revision) : List SqlStatement :=
  revision.parentIds.map (.requireParent revision.id) ++
    .insertRevision revision :: revision.parentIds.map (.insertParent revision.id)

variable (deps : EngineDeps)

def importVault (vaultId : VaultId) (stamp : Stamp) (name : String) (bytes : Bytes)
    (kdbxPath : Option FilePath) : Plan :=
  let hash := deps.sha256 bytes
  let revision :=
    importedRevision (stamp.seed vaultId hash bytes.length (some name)) (some deps.deviceId)
  let vault : Vault :=
    { id := vaultId, name, headRevisionId := none, kdbxPath, createdAt := stamp.now }
  let event : HeadRevisionEvent :=
    { vaultId, previousRevisionId := none, nextRevisionId := revision.id
      createdAt := stamp.now, reason := .promote }
  ⟨some bytes, inTransaction (.saveVault vault :: saveRevision revision ++
    [.saveVault { vault with headRevisionId := some revision.id }, .appendHeadEvent event])⟩

/-- Is this the hash of the head revision? -/
def unchanged (t : Tables) (vault : Vault) (hash : Sha256Hex) : Bool :=
  (vault.headRevisionId.bind t.getRevision).any (·.hash = hash)

def recordLocalChange (stamp : Stamp) (vaultId : VaultId) (bytes : Bytes) (t : Tables) : Plan :=
  match t.getVault vaultId with
  | none => nothing
  | some vault =>
    let hash := deps.sha256 bytes
    if unchanged t vault hash then nothing
    else
      let revision := localChangeRevision (stamp.seed vaultId hash bytes.length none)
        vault.headRevisionId (some deps.deviceId)
      let event : HeadRevisionEvent :=
        { vaultId, previousRevisionId := vault.headRevisionId, nextRevisionId := revision.id
          createdAt := stamp.now, reason := .promote }
      ⟨some bytes, inTransaction (saveRevision revision ++
        [.saveVault { vault with headRevisionId := some revision.id }, .appendHeadEvent event])⟩

/-- `saveRevision` outside a transaction, of a revision that may be refused after the `put`. -/
def putAndSave (bytes : Bytes) : Except Failure Revision → Plan
  | .ok revision => ⟨some bytes, (saveRevision revision).map .run⟩
  | .error _ => ⟨some bytes, []⟩

def ingestReceivedRevision (now : Nat) (input : IngestInput) (t : Tables) : Plan :=
  let actualHash := deps.sha256 input.bytes
  if t.hasRevision input.revisionId then nothing
  else if actualHash ≠ input.declaredHash then nothing
  else if ¬ input.declaredParentIds.all t.hasRevision then nothing
  else
    putAndSave input.bytes (receivedRevision
      ⟨input.revisionId, input.vaultId, actualHash, input.bytes.length, now, input.message⟩
      input.declaredParentIds input.fromDeviceId)

/-- The revisions that a merge starts from, with their bytes. -/
def withBytes (files : FileBlobStore) (t : Tables) (revisionId : RevisionId) :
    Option (RevisionId × Bytes) := do
  let revision ← t.getRevision revisionId
  let bytes ← files.get revision.hash
  return (revision.id, bytes)

def merge (stamp : Stamp) (vaultId : VaultId) (baseRevisionId : RevisionId)
    (incomingRevisionIds : List RevisionId) (message : Option String) (files : FileBlobStore)
    (t : Tables) : Plan :=
  match withBytes files t baseRevisionId, incomingRevisionIds.mapM (withBytes files t) with
  | some base, some incoming =>
    match deps.merge vaultId base incoming with
    | .mergeSucceeded bytes =>
      putAndSave bytes (mergedRevision
        (stamp.seed vaultId (deps.sha256 bytes) bytes.length
          (message.orElse fun _ =>
            some ("Merged " ++ toString (incoming.length + 1) ++ " revisions")))
        base.1 (incoming.map (·.1)) (some deps.deviceId))
    | .needsCredentials _ | .mergeFailed _ => nothing
  | _, _ => nothing

/-- The transaction that `promote` and `fastForward` end with. -/
def commitHeadMove : Except Failure (Vault × HeadRevisionEvent) → Plan
  | .ok (next, event) => ⟨none, inTransaction [.saveVault next, .appendHeadEvent event]⟩
  | .error _ => nothing

def promote (now : Nat) (vaultId : VaultId) (revisionId : RevisionId) (t : Tables) : Plan :=
  match t.getVault vaultId, t.getRevision revisionId with
  | some vault, some revision => commitHeadMove (promoteRevision vault revision now)
  | _, _ => nothing

def fastForward (now : Nat) (vaultId : VaultId) (revisionId : RevisionId) (t : Tables) : Plan :=
  match t.getVault vaultId, t.getRevision revisionId with
  | some vault, some revision => commitHeadMove (fastForwardRevision vault revision now)
  | _, _ => nothing

def adoptVault (now : Nat) (vaultId : VaultId) (name : String) (t : Tables) : Plan :=
  match t.getVault vaultId with
  | some _ => nothing
  | none =>
    ⟨none, [.run (.saveVault
      { id := vaultId, name, headRevisionId := none, kdbxPath := none, createdAt := now })]⟩

def bindVaultToFile (vaultId : VaultId) (kdbxPath : FilePath) (t : Tables) : Plan :=
  match t.getVault vaultId with
  | none => nothing
  | some vault => ⟨none, [.run (.saveVault { vault with kdbxPath := some kdbxPath })]⟩

end Plan

namespace Operation

/-- The vault id the call generates, if it generates one. -/
def generatedVault : Operation → Option VaultId
  | importVault vaultId .. => some vaultId
  | _ => none

/-- The ids the call generates are new. -/
def HasNewIds (operation : Operation) (t : Tables) : Prop :=
  (operation.generated.all fun id => !t.hasRevision id) ∧
    operation.generatedVault.all fun id => !t.vaults.has id

instance (operation : Operation) (t : Tables) : Decidable (operation.HasNewIds t) :=
  inferInstanceAs (Decidable (_ ∧ _))

def plan (deps : EngineDeps) (files : FileBlobStore) (t : Tables) : Operation → Plan
  | importVault vaultId stamp name bytes kdbxPath =>
    .importVault deps vaultId stamp name bytes kdbxPath
  | recordLocalChange stamp vaultId bytes => .recordLocalChange deps stamp vaultId bytes t
  | ingestReceivedRevision now input => .ingestReceivedRevision deps now input t
  | merge stamp vaultId baseRevisionId incomingRevisionIds message =>
    .merge deps stamp vaultId baseRevisionId incomingRevisionIds message files t
  | promote now vaultId revisionId => .promote now vaultId revisionId t
  | fastForward now vaultId revisionId => .fastForward now vaultId revisionId t
  | adoptVault now vaultId name => .adoptVault now vaultId name t
  | bindVaultToFile vaultId kdbxPath => .bindVaultToFile vaultId kdbxPath t

end Operation

end PassVault
