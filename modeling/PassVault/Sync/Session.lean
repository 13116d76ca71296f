import PassVault.Core.DagOrder
import PassVault.Sync.SessionState

/-!
# One synchronization session

`SyncSession.run` of `packages/sync/src/session.ts`, as a program that shares a device's state
with the callbacks of its channels. A device may hold several sessions, told apart by a number.
-/

namespace PassVault

/-- Proves who we are and decides whether to accept who the peer claims to be. -/
structure PeerAuthenticator where
  deviceId : DeviceId
  deviceName : String
  publicKey : Bytes
  /-- What `newNonce` returns. -/
  nonce : Bytes
  signChallenge : (nonce : Bytes) → (challenger responder : DeviceId) → Bytes
  /-- The name to show for an accepted peer, or why it is rejected. -/
  verifyPeer : (deviceId : DeviceId) → (publicKey nonce signature : Bytes) →
    (claimedName : String) → Except String String

structure SessionDeps where
  /-- The vault to sync; none when the device holds none yet. -/
  vaultId : Option VaultId
  auth : PeerAuthenticator
  chunkBytes : Nat
  highWaterBytes : Nat
  /-- What the clock says when the session ends. -/
  now : Nat

/-- `LOW_WATER_BYTES` of the bulk channel. -/
def lowWaterBytes : Nat := 256 * 1024

/-- "This device holds no vault", since the field is not optional on the wire. -/
def emptyVaultId : VaultId := ⟨"\x00none"⟩

/-- States that sessions run on. -/
class SessionState (σ : Type) (ω ε : outParam Type) extends EngineState σ ω ε where
  session : Nat → σ → Session
  setSession : Nat → Session → σ → σ
  output : Nat → Output → ε
  store_setSession : ∀ k x s, store (setSession k x s) = store s
  session_setSession : ∀ k x s, session k (setSession k x s) = x

export SessionState (session setSession output)

attribute [simp] SessionState.store_setSession SessionState.session_setSession

namespace SyncSession

variable {σ ω ε : Type} [SessionState σ ω ε]

/-- Change the session and put its outputs out. -/
def onSession (k : Nat) (f : Session → Session × List Output) : Async σ ε Failure Unit :=
  .act (fun s => (setSession k (f (session k s)).1 s, (f (session k s)).2.map (output σ k)))
    fun _ => .done ()

def update (k : Nat) (f : Session → Session) : Async σ ε Failure Unit :=
  onSession k fun s => (f s, [])

def send (k : Nat) (message : Message) : Async σ ε Failure Unit :=
  onSession k fun s => (s, [.control message])

def emit (k : Nat) (event : SessionEvent) : Async σ ε Failure Unit :=
  onSession k fun s => (s, [.event event])

def readSession {α : Type} (k : Nat) (f : Session → α) : Async σ ε Failure α :=
  Async.read fun s => f (session k s)

/-- The end of a bounded wait. -/
def takeOutcome (k : Nat) : Async σ ε Failure Message := do
  let waiting ← readSession k (·.waiting)
  update k fun s => { s with waiting := .idle }
  match waiting with
  | .settled outcome => Async.ofExcept outcome
  | _ => throw (.session (.protocol .internal) "not settled")

/-- `await this.inbox.expect(type)`. -/
def expect (k : Nat) (type : MessageType) : Async σ ε Failure Message := do
  update k (·.expect type)
  .await (fun s => (session k s).isSettled) (takeOutcome k)

/-- What `expect` returns has the type that was asked for. -/
def unexpected {α : Type} : Async σ ε Failure α :=
  throw (.session (.protocol .internal) "unexpected message")

def fromBase64 (text : String) (reason : String) : Async σ ε Failure Bytes :=
  match decodeBase64 text with
  | some bytes => return bytes
  | none => throw (malformed reason)

/-- Version check, then mutual proof of identity. -/
def handshake (k : Nat) (auth : PeerAuthenticator) : Async σ ε Failure RemoteDevice := do
  send k (.hello protocolVersion auth.deviceId auth.deviceName (encodeBase64 auth.publicKey)
    (encodeBase64 auth.nonce))
  match ← expect k .hello with
  | .hello version deviceId deviceName publicKey nonce =>
    if version ≠ protocolVersion then
      send k (.error .unsupportedVersion ("this device speaks protocol " ++
        toString protocolVersion ++ ", peer speaks " ++ toString version))
      throw (.session (.protocol .unsupportedVersion)
        ("peer protocol version " ++ toString version ++ " is not supported"))
    let peerPublicKey ← fromBase64 publicKey "hello carried an undecodable key or nonce"
    let peerNonce ← fromBase64 nonce "hello carried an undecodable key or nonce"
    Async.pause
    send k (.auth (encodeBase64 (auth.signChallenge peerNonce deviceId auth.deviceId)))
    match ← expect k .auth with
    | .auth signature =>
      let signature ← fromBase64 signature "auth carried an undecodable signature"
      Async.pause
      match auth.verifyPeer deviceId peerPublicKey auth.nonce signature deviceName with
      | .error reason =>
        send k (.error .unauthorized reason)
        throw (.session (.protocol .unauthorized) ("peer rejected: " ++ reason))
      | .ok name =>
        update k fun s => { s with remoteDeviceId := some deviceId }
        emit k (.handshake ⟨deviceId, name⟩)
        emit k (.authenticated deviceId)
        return ⟨deviceId, name⟩
    | _ => unexpected
  | _ => unexpected

/-- `deps.engine.getVault`, when the session is given a vault. -/
def localVault : Option VaultId → Async σ ε Failure (Option Vault)
  | none => return none
  | some vaultId => query (·.getVault vaultId)

def advertise (k : Nat) : Option Vault → Async σ ε Failure Unit
  | some vault => do
    let revisionCount ← query fun t => (t.listRevisions vault.id).length
    send k (.vaultSummary vault.id vault.name vault.headRevisionId revisionCount)
  | none => send k (.vaultSummary emptyVaultId "" none 0)

/-- Agree on which vault the session is about. `onAdopted` is the listener's answer to
`adopted-vault`, in the same section. -/
def exchangeVaultSummary (k : Nat) (deps : SessionDeps)
    (onAdopted : VaultId → Async σ ε Failure Unit) :
    Async σ ε Failure (VaultId × Option RevisionId) := do
  let vault ← localVault deps.vaultId
  if deps.vaultId.isSome ∧ vault = none then
    send k (.error .unknownVault "this device does not track that vault")
    throw (.session (.protocol .unknownVault) "local device does not track this vault")
  advertise k vault
  match ← expect k .vaultSummary with
  | .vaultSummary remoteId remoteName remoteHead _ =>
    match vault with
    | none =>
      if remoteId = emptyVaultId then
        throw (.session (.protocol .unknownVault) "neither device is tracking a vault yet")
      let _ ← SyncEngine.adoptVault deps.now remoteId remoteName
      emit k (.adoptedVault remoteId remoteName)
      onAdopted remoteId
      return (remoteId, remoteHead)
    | some vault =>
      if remoteId ≠ emptyVaultId ∧ remoteId ≠ vault.id then
        throw (.session (.protocol .unknownVault) ("This device tracks \"" ++ vault.name ++
          "\" and the peer tracks \"" ++ remoteName ++ "\", which are different vaults. " ++
          "A vault must be shared from one device and joined on the other, " ++
          "not imported separately on both."))
      return (vault.id, remoteHead)
  | _ => unexpected

def exchangeHistory (k : Nat) (vaultId : VaultId) :
    Async σ ε Failure (List HistorySummaryEntry) := do
  let summary ← SyncEngine.historySummary vaultId
  send k (.historySummary vaultId summary)
  match ← expect k .historySummary with
  | .historySummary _ revisions => return revisions
  | _ => unexpected

def computeWants (vaultId : VaultId) (remoteGraph : RevisionGraph) :
    Option RevisionId → Async σ ε Failure (List RevisionId)
  | none => return []
  | some remoteHead => do
    let held := (← SyncEngine.historySummary vaultId).map (·.revisionId)
    Async.ofExcept (missingRevisions remoteGraph remoteHead fun id => id ∈ held)

def classify (vaultId : VaultId) (remoteGraph : RevisionGraph) (remoteHead : Option RevisionId) :
    Async σ ε Failure Divergence := do
  let vault ← query (·.getVault vaultId)
  match vault.bind (·.headRevisionId), remoteHead with
  | none, none => return .equal
  | none, some _ => return .remoteAhead
  | some _, none => return .localAhead
  | some localHead, some remoteHead =>
    let summary ← SyncEngine.historySummary vaultId
    return classifyDivergence (unionGraphs (buildGraph (summaryNodes summary)) remoteGraph)
      localHead remoteHead

/-! ## Serving -/

/-- Wait for the bulk channel to drain when it holds too much. -/
def backpressure (k highWaterBytes : Nat) : Async σ ε Failure Unit := do
  if highWaterBytes < (← readSession k (·.buffered)) then
    .await (fun s => (session k s).bulkClosed || (session k s).buffered ≤ lowWaterBytes) (.done ())

def sendChunks (k : Nat) (deps : SessionDeps) (transferSeq : Nat) (bytes : Bytes) :
    List Nat → Async σ ε Failure Unit
  | [] => return ()
  | chunkIndex :: rest => do
    let payload := (bytes.drop (chunkIndex * deps.chunkBytes)).take deps.chunkBytes
    backpressure k deps.highWaterBytes
    let frame ← Async.ofExcept (encodeChunkFrame ⟨transferSeq, chunkIndex, payload⟩)
    onSession k fun s => (s, [.bulk frame])
    sendChunks k deps transferSeq bytes rest

def awaitAck (k : Nat) (revisionId : RevisionId) : Async σ ε Failure Unit :=
  update k fun s => { s with ack := .waiting revisionId }

/-- `await ack`. -/
def takeAck (k : Nat) : Async σ ε Failure (Bool × Option String) :=
  .await (fun s => (session k s).ackSettled) do
    let ack ← readSession k (·.ack)
    update k fun s => { s with ack := .idle }
    match ack with
    | .settled accepted reason => return (accepted, reason)
    | _ => unexpected

def headerFor (revision : Revision) (transferSeq totalChunks : Nat) : RevisionHeader :=
  ⟨transferSeq, revision.vaultId, revision.id, revision.hash, revision.sizeBytes,
    revision.parentIds, totalChunks, revision.message⟩

def sendRevision (k : Nat) (deps : SessionDeps) (transferSeq : Nat) (revision : Revision)
    (bytes : Bytes) (last : Bool) : Async σ ε Failure Unit := do
  let totalChunks ← Async.ofExcept (chunkCountFor bytes.length deps.chunkBytes)
  send k (.revisionHeader (headerFor revision transferSeq totalChunks))
  emit k (.sending revision.id totalChunks)
  awaitAck k revision.id
  sendChunks k deps transferSeq bytes (List.range totalChunks)
  update k fun s => { s with unsent := !last }
  let (accepted, reason) ← takeAck k
  if accepted then
    onSession k fun s => ({ s with sent := s.sent ++ [revision.id] }, [.event (.sent revision.id)])
  else
    emit k (.rejected revision.id (reason.getD "peer rejected"))

def serve (k : Nat) (deps : SessionDeps) : List RevisionId → Nat → Async σ ε Failure Unit
  | [], _ => update k fun s => { s with unsent := false }
  | revisionId :: rest, transferSeq => do
    match ← query (·.getRevision revisionId) with
    | none => serve k deps rest transferSeq
    | some revision =>
      let bytes ← SyncEngine.bytesOf revisionId
      sendRevision k deps (transferSeq + 1) revision bytes rest.isEmpty
      serve k deps rest (transferSeq + 1)

/-! ## Receiving -/

/-- `drainInbound`. The check of `expected` is made when it is called, and after that only when
`notifyProgress` is. -/
def startDrain (k : Nat) (theirWants : List RevisionId) : Async σ ε Failure Unit :=
  update k fun s =>
    { s with
      drain := if s.expected = [] then .resolved else .waiting, unsent := !theirWants.isEmpty }

/-- What is done with one complete transfer; whatever is thrown rejects it. -/
def ingest (k : Nat) (deps : EngineDeps) (now : Nat) (inbound : InboundHeader) (bytes : Bytes) :
    Async σ ε Failure Unit := do
  let header := inbound.header
  match ← SyncEngine.ingestReceivedRevision deps now
      ⟨header.vaultId, header.revisionId, header.parentIds, header.hash, bytes,
        inbound.fromDeviceId, header.message⟩ with
  | .rejected reason => onSession k (·.reject header.revisionId reason)
  | _ => onSession k (·.accepted header.revisionId)

def ingestOrReject (k : Nat) (deps : EngineDeps) (now : Nat) (inbound : InboundHeader)
    (bytes : Bytes) : Async σ ε Failure Unit := do
  match ← (ingest k deps now inbound bytes).attempt with
  | .ok _ => return ()
  | .error error => onSession k (·.reject inbound.header.revisionId error.message)

/-- The next link of the `inboundWork` chain. -/
def ingestNext (k : Nat) (deps : EngineDeps) (now : Nat) (inbound : InboundHeader)
    (bytes : Bytes) : Async σ ε Failure Unit := do
  update k fun s => { s with inboundWork := s.inboundWork.tail, ingesting := true }
  let _ ← (ingestOrReject k deps now inbound bytes).attempt
  update k fun s => { s with ingesting := false, ingested := s.ingested + 1 }

/-- `await this.inboundWork`, for the links there are by now. -/
def awaitInbound (k : Nat) : Async σ ε Failure Unit := do
  let links ← readSession k fun s => s.ingested + s.ingesting.toNat + s.inboundWork.length
  .await (fun s => links ≤ (session k s).ingested) (.done ())

/-! ## The session -/

/-- `await this.withTimeout(this.peerComplete, …)`. -/
def awaitCompletion (k : Nat) : Async σ ε Failure Unit := do
  update k fun s =>
    { s with waiting :=
        if s.peerCompleted then .settled (.ok (.syncComplete emptyVaultId)) else .completing }
  let _ ← .await (fun s => (session k s).isSettled) (takeOutcome k)

def exchangeRevisions (k : Nat) (deps : SessionDeps) (theirWants : List RevisionId) :
    Async σ ε Failure Unit := do
  -- `serve` only reads the store before it first waits, so the drain may be set up before it.
  startDrain k theirWants
  serve k deps theirWants 0
  .await (fun s => (session k s).drain = .resolved) (.done ())

def run (k : Nat) (deps : SessionDeps) (onAdopted : VaultId → Async σ ε Failure Unit) :
    Async σ ε Failure SessionResult := do
  let remote ← handshake k deps.auth
  let (vaultId, remoteHead) ← exchangeVaultSummary k deps onAdopted
  let remoteNodes := summaryNodes (← exchangeHistory k vaultId)
  Async.ofExcept (validateRemoteGraph remoteNodes)
  let remoteGraph := buildGraph remoteNodes
  let wanted ← computeWants vaultId remoteGraph remoteHead
  onSession k fun s => ({ s with expected := wanted }, [.event (.requested wanted)])
  send k (.wantRevisions vaultId wanted)
  match ← expect k .wantRevisions with
  | .wantRevisions _ theirWants =>
    exchangeRevisions k deps theirWants
    send k (.syncComplete vaultId)
    awaitCompletion k
    awaitInbound k
    match remoteHead with
    | some head => SyncEngine.recordPeerHead deps.now remote.id vaultId head
    | none => pure ()
    let (received, sent, missing) ← readSession k fun s => (s.received, s.sent, s.expected)
    let divergence ← classify vaultId remoteGraph remoteHead
    return ⟨vaultId, remote, received, sent, missing, divergence, remoteHead⟩
  | _ => unexpected

end SyncSession

end PassVault
