import PassVault.Core.Lineage
import PassVault.Storage.DeviceStore

/-!
# The synchronization engine

The operations of `SyncEngine` in `packages/sync/src/engine.ts`, as programs that interleave at
their awaits. `sha256` and the interpreter that merges vaults are parameters; the fresh ids and
the time an operation takes from its generators are arguments. Operations report what they do as
events, for the statements about them.
-/

namespace PassVault

/-- What an interpreter answers to a merge. -/
inductive MergeResult where
  | mergeSucceeded (bytes : Bytes)
  | needsCredentials (reason : String)
  | mergeFailed (reason : String)
deriving DecidableEq, Repr

structure EngineDeps where
  sha256 : Bytes → Sha256Hex
  /-- `interpreter.merge`, with the local version and the incoming ones. -/
  merge : VaultId → RevisionId × Bytes → List (RevisionId × Bytes) → MergeResult
  deviceId : DeviceId

/-- Why a vault row is written. `ω` is why the engine was called, a record that it passes on and
never reads. -/
inductive VaultWrite (ω : Type) where
  | created
  | imported (revision : Revision)
  /-- `recordLocalChange` makes a new revision the head. -/
  | recorded (revision : Revision) (origin : ω)
  /-- `promote` or `fastForward` moves the head. -/
  | moved (event : HeadRevisionEvent) (origin : Option ω)
  | adopted
  | bound

/-- What the engine reports. -/
inductive EngineEvent (ω : Type) where
  /-- `saveRevision` was called for a revision. -/
  | saved (revision : Revision)
  /-- `saveVault` was called for a row. -/
  | wroteVault (vault : Vault) (why : VaultWrite ω)
  /-- `recordLocalChange` was called. -/
  | called (vaultId : VaultId) (origin : ω)
  /-- `recordLocalChange` found the bytes to be those of the head. -/
  | unchanged (vaultId : VaultId) (revisionId : RevisionId) (origin : ω)
  /-- `fastForward` was called. -/
  | advancing (vaultId : VaultId) (revisionId : RevisionId) (origin : ω)

/-- States the engine runs on. -/
class EngineState (σ : Type) (ω ε : outParam Type) extends StoreState σ ε where
  event : EngineEvent ω → ε

export EngineState (event)

inductive LocalChangeResult where
  | unchanged (revisionId : RevisionId)
  | recorded (revision : Revision)
deriving DecidableEq, Repr

inductive IngestResult where
  | stored (revision : Revision)
  | alreadyPresent (revisionId : RevisionId)
  | rejected (reason : String)
deriving DecidableEq, Repr

inductive MergeOutcome where
  | merged (revision : Revision)
  | failed (reason : String)
  | needsCredentials (reason : String)
deriving DecidableEq, Repr

structure IngestInput where
  vaultId : VaultId
  revisionId : RevisionId
  declaredParentIds : List RevisionId
  declaredHash : Sha256Hex
  bytes : Bytes
  fromDeviceId : DeviceId
  message : Option String
deriving DecidableEq, Repr

structure HistorySummaryEntry where
  revisionId : RevisionId
  hash : Sha256Hex
  sizeBytes : Nat
  parentIds : List RevisionId
deriving DecidableEq, Repr

/-- The ids and parents of a history summary. -/
def summaryNodes (summary : List HistorySummaryEntry) : List RevisionNode :=
  summary.map fun entry => ⟨entry.revisionId, entry.parentIds⟩

/-- Our DAG in the shape a peer needs. -/
def Tables.historySummary (t : Tables) (vaultId : VaultId) : List HistorySummaryEntry :=
  (t.listRevisions vaultId).map fun r => ⟨r.id, r.hash, r.sizeBytes, r.parentIds⟩

/-- What an operation takes from `ids` and `clock`. -/
structure Stamp where
  revisionId : RevisionId
  now : Nat
deriving DecidableEq, Repr

def Stamp.seed (stamp : Stamp) (vaultId : VaultId) (hash : Sha256Hex) (sizeBytes : Nat)
    (message : Option String) : RevisionSeed :=
  ⟨stamp.revisionId, vaultId, hash, sizeBytes, stamp.now, message⟩

namespace SyncEngine

variable {σ ω ε : Type} [EngineState σ ω ε] (deps : EngineDeps)

/-- Report an event at a point where the store is not touched. -/
def report (e : EngineEvent ω) : Async σ ε Failure Unit :=
  .act (changeStore id [event σ e]) fun _ => .done ()

def requireVault (vaultId : VaultId) : Async σ ε Failure Vault := do
  match ← query (·.getVault vaultId) with
  | some vault => return vault
  | none => throw (.contract ("Contract violation: unknown vault " ++ vaultId.value))

def requireRevision (revisionId : RevisionId) : Async σ ε Failure Revision := do
  match ← query (·.getRevision revisionId) with
  | some revision => return revision
  | none => throw (.contract ("Contract violation: unknown revision " ++ revisionId.value))

def saveRevision (revision : Revision) : Async σ ε Failure Unit :=
  execute (Tables.saveRevision revision) [event σ (.saved revision)]

def saveVault (vault : Vault) (why : VaultWrite ω) : Async σ ε Failure Unit :=
  execute (fun t => .ok (t.saveVault vault)) [event σ (.wroteVault vault why)]

def appendHeadEvent (headEvent : HeadRevisionEvent) : Async σ ε Failure Unit :=
  execute (Tables.appendHeadEvent headEvent) []

/-- Take a .kdbx the user selected and make it the root of a new vault history. -/
def importVault (vaultId : VaultId) (stamp : Stamp) (name : String) (bytes : Bytes)
    (kdbxPath : Option FilePath) : Async σ ε Failure (Vault × Revision) := do
  let hash ← putBlob deps.sha256 bytes
  let revision :=
    importedRevision (stamp.seed vaultId hash bytes.length (some name)) (some deps.deviceId)
  transaction do
    let vault : Vault :=
      { id := vaultId, name, headRevisionId := none, kdbxPath, createdAt := stamp.now }
    saveVault vault .created
    saveRevision revision
    let withHead := { vault with headRevisionId := some revision.id }
    saveVault withHead (.imported revision)
    appendHeadEvent
      { vaultId, previousRevisionId := none, nextRevisionId := revision.id
        createdAt := stamp.now, reason := .promote }
    return (withHead, revision)

/-- Is this the hash of the head revision? -/
def headWithHash (headRevisionId : Option RevisionId) (hash : Sha256Hex) :
    Async σ ε Failure (Option RevisionId) := do
  match headRevisionId with
  | none => return none
  | some headRevisionId =>
    match ← query (·.getRevision headRevisionId) with
    | some head => return if head.hash = hash then some head.id else none
    | none => return none

/-- Record that the vault file changed on this device. -/
def recordLocalChange (stamp : Stamp) (vaultId : VaultId) (bytes : Bytes) (origin : ω) :
    Async σ ε Failure LocalChangeResult := do
  report (.called vaultId origin)
  let vault ← requireVault vaultId
  let hash := deps.sha256 bytes
  match ← headWithHash vault.headRevisionId hash with
  | some revisionId =>
    report (.unchanged vaultId revisionId origin)
    return .unchanged revisionId
  | none =>
    let _ ← putBlob deps.sha256 bytes
    let revision := localChangeRevision (stamp.seed vaultId hash bytes.length none)
      vault.headRevisionId (some deps.deviceId)
    transaction do
      saveRevision revision
      saveVault { vault with headRevisionId := some revision.id } (.recorded revision origin)
      appendHeadEvent
        { vaultId, previousRevisionId := vault.headRevisionId, nextRevisionId := revision.id
          createdAt := stamp.now, reason := .promote }
      return .recorded revision

/-- The loop over the declared parents, up to the first that is missing. -/
def firstMissing : List RevisionId → Async σ ε Failure (Option RevisionId)
  | [] => return none
  | parentId :: rest => do
    if ← query (·.hasRevision parentId) then firstMissing rest else return some parentId

/-- Store a revision received from a peer. -/
def ingestReceivedRevision (now : Nat) (input : IngestInput) :
    Async σ ε Failure IngestResult := do
  if ← query (·.hasRevision input.revisionId) then
    return .alreadyPresent input.revisionId
  let actualHash := deps.sha256 input.bytes
  if actualHash ≠ input.declaredHash then
    return .rejected "received bytes do not match the declared hash"
  match ← firstMissing input.declaredParentIds with
  | some parentId =>
    return .rejected
      ("parent " ++ parentId.value ++ " must be received before " ++ input.revisionId.value)
  | none =>
    let _ ← putBlob deps.sha256 input.bytes
    let revision ← Async.ofExcept (receivedRevision
      ⟨input.revisionId, input.vaultId, actualHash, input.bytes.length, now, input.message⟩
      input.declaredParentIds input.fromDeviceId)
    saveRevision revision
    return .stored revision

/-- `Promise.all(ids.map((id) => this.requireRevision(id)))`: the queries run at once, and the
first id in order that is unknown is the one reported. -/
def requireRevisions (ids : List RevisionId) : Async σ ε Failure (List Revision) :=
  .act (fun s => (s, [])) fun s => .await (fun _ => true)
    (match ids.find? fun id => ((store s).tables.getRevision id).isNone with
    | some id => .fail (.contract ("Contract violation: unknown revision " ++ id.value))
    | none => .done (ids.filterMap (store s).tables.getRevision))

/-- The bytes of the incoming revisions, one after the other. -/
def incomingBytes : List Revision → Async σ ε Failure (List (RevisionId × Bytes))
  | [] => return []
  | revision :: rest => do
    let bytes ← getBlob revision.hash
    return (revision.id, bytes) :: (← incomingBytes rest)

/-- Merge revisions into a new one. -/
def merge (stamp : Stamp) (vaultId : VaultId) (baseRevisionId : RevisionId)
    (incomingRevisionIds : List RevisionId) (message : Option String) :
    Async σ ε Failure MergeOutcome := do
  let base ← requireRevision baseRevisionId
  let incoming ← requireRevisions incomingRevisionIds
  let baseBytes ← getBlob base.hash
  match deps.merge vaultId (base.id, baseBytes) (← incomingBytes incoming) with
  | .needsCredentials reason => return .needsCredentials reason
  | .mergeFailed reason => return .failed reason
  | .mergeSucceeded bytes =>
    let hash ← putBlob deps.sha256 bytes
    let revision ← Async.ofExcept (mergedRevision
      (stamp.seed vaultId hash bytes.length
        (message.orElse fun _ =>
          some ("Merged " ++ toString (incoming.length + 1) ++ " revisions")))
      base.id (incoming.map (·.id)) (some deps.deviceId))
    saveRevision revision
    return .merged revision

/-- The transaction that `promote` and `fastForward` end with. -/
def commitHeadMove (next : Vault) (headEvent : HeadRevisionEvent) (origin : Option ω) :
    Async σ ε Failure Vault :=
  transaction do
    saveVault next (.moved headEvent origin)
    appendHeadEvent headEvent
    return next

/-- Deliberate promotion. -/
def promote (now : Nat) (vaultId : VaultId) (revisionId : RevisionId) :
    Async σ ε Failure Vault := do
  let vault ← requireVault vaultId
  let revision ← requireRevision revisionId
  let (next, headEvent) ← Async.ofExcept (promoteRevision vault revision now)
  commitHeadMove next headEvent none

/-- Advance to a revision that already contains our head. -/
def fastForward (now : Nat) (vaultId : VaultId) (revisionId : RevisionId) (origin : ω) :
    Async σ ε Failure Vault := do
  report (.advancing vaultId revisionId origin)
  let vault ← requireVault vaultId
  let revision ← requireRevision revisionId
  let (next, headEvent) ← Async.ofExcept (fastForwardRevision vault revision now)
  commitHeadMove next headEvent (some origin)

/-- Encrypted bytes of a revision. -/
def bytesOf (revisionId : RevisionId) : Async σ ε Failure Bytes := do
  getBlob (← requireRevision revisionId).hash

/-- Register a vault that originated on another device, keeping its id. -/
def adoptVault (now : Nat) (vaultId : VaultId) (name : String) : Async σ ε Failure Vault := do
  match ← query (·.getVault vaultId) with
  | some existing => return existing
  | none =>
    let vault : Vault :=
      { id := vaultId, name, headRevisionId := none, kdbxPath := none, createdAt := now }
    saveVault vault .adopted
    return vault

/-- Point an adopted vault at a local file once the user chooses where it lives. -/
def bindVaultToFile (vaultId : VaultId) (kdbxPath : FilePath) : Async σ ε Failure Vault := do
  let vault ← requireVault vaultId
  let bound := { vault with kdbxPath := some kdbxPath }
  saveVault bound .bound
  return bound

/-- Compare our head against a peer's, using their history summary. -/
def divergenceWithPeer (vaultId : VaultId) (remoteNodes : List RevisionNode)
    (remoteHead : RevisionId) : Async σ ε Failure Divergence := do
  Async.ofExcept (validateRemoteGraph remoteNodes)
  let vault ← requireVault vaultId
  match vault.headRevisionId with
  | none => throw (.contract "Contract violation: cannot compare a vault with no head")
  | some head =>
    let graph ← query (·.loadGraph vaultId)
    return classifyDivergence (unionGraphs graph (buildGraph remoteNodes)) head remoteHead

def historySummary (vaultId : VaultId) : Async σ ε Failure (List HistorySummaryEntry) :=
  query (·.historySummary vaultId)

def recordPeerHead (now : Nat) (deviceId : DeviceId) (vaultId : VaultId)
    (headRevisionId : RevisionId) : Async σ ε Failure Unit :=
  execute (Tables.recordPeerHead ⟨deviceId, vaultId, headRevisionId, now⟩) []

end SyncEngine

end PassVault
