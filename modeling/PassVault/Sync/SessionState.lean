import PassVault.Sync.Protocol

/-!
# The state of a session

What `SyncSession` and its `ControlInbox` hold (`packages/sync/src/session.ts`,
`controlInbox.ts`), and what the channel callbacks do to it. The program that `run` is waits at
one place at a time, so the inbox has at most one waiter, and so have the acks.
-/

namespace PassVault

structure InboundHeader where
  header : RevisionHeader
  fromDeviceId : DeviceId
deriving DecidableEq, Repr

structure RemoteDevice where
  id : DeviceId
  name : String
deriving DecidableEq, Repr

structure SessionResult where
  vaultId : VaultId
  remoteDevice : RemoteDevice
  received : List RevisionId
  sent : List RevisionId
  /-- Requested but never delivered. -/
  missing : List RevisionId
  divergence : Divergence
  remoteHead : Option RevisionId
deriving DecidableEq, Repr

inductive SessionEvent where
  | handshake (remote : RemoteDevice)
  | authenticated (remoteDeviceId : DeviceId)
  | adoptedVault (vaultId : VaultId) (name : String)
  | requested (revisionIds : List RevisionId)
  | sending (revisionId : RevisionId) (totalChunks : Nat)
  | sent (revisionId : RevisionId)
  | received (revisionId : RevisionId)
  | rejected (revisionId : RevisionId) (reason : String)
deriving DecidableEq, Repr

/-- What a session puts on its channels and tells its owner. -/
inductive Output where
  | control (message : Message)
  | bulk (frame : Bytes)
  | event (event : SessionEvent)
deriving DecidableEq, Repr

/-- A bounded wait of `run`: for a message, or for the peer to complete. Its timer is armed until
it is settled. -/
inductive Waiting where
  | idle
  | expecting (type : MessageType)
  | completing
  | settled (outcome : Except Failure Message)

/-- The promise of `awaitAck`. -/
inductive AckWait where
  | idle
  | waiting (revisionId : RevisionId)
  | settled (accepted : Bool) (reason : Option String)
deriving DecidableEq, Repr

/-- The promise of `drainInbound`; `notifyProgress` is set while it is `waiting`. -/
inductive Drain where
  | idle
  | waiting
  | resolved
deriving DecidableEq, Repr

structure Session where
  queued : List Message
  failure : Option Failure
  waiting : Waiting
  remoteDeviceId : Option DeviceId
  assemblers : List (Nat × InboundHeader × ChunkAssembler)
  orphanFrames : List ChunkFrame
  /-- The chain of `inboundWork`: what is queued, whether an ingest is under way, and how many
  are done. -/
  inboundWork : List (InboundHeader × Bytes)
  ingesting : Bool
  ingested : Nat
  ack : AckWait
  /-- Something the peer asked for is still to be sent. No program reads it. -/
  unsent : Bool
  expected : List RevisionId
  received : List RevisionId
  sent : List RevisionId
  drain : Drain
  peerCompleted : Bool
  /-- `bufferedAmount` of the bulk channel. -/
  buffered : Nat
  bulkClosed : Bool
  /-- How `run` ended. -/
  outcome : Option (Except Failure SessionResult)

namespace Session

def new : Session where
  queued := []
  failure := none
  waiting := .idle
  remoteDeviceId := none
  assemblers := []
  orphanFrames := []
  inboundWork := []
  ingesting := false
  ingested := 0
  ack := .idle
  unsent := false
  expected := []
  received := []
  sent := []
  drain := .idle
  peerCompleted := false
  buffered := 0
  bulkClosed := false
  outcome := none

/-- Is a session timer armed? -/
def timerArmed (s : Session) : Bool :=
  match s.waiting with
  | .expecting _ | .completing => true
  | _ => false

def isSettled (s : Session) : Bool :=
  match s.waiting with
  | .settled _ => true
  | _ => false

def ackSettled (s : Session) : Bool :=
  match s.ack with
  | .settled .. => true
  | _ => false

/-! ## The inbox -/

/-- The types `attach` registers a handler for. -/
def handled : MessageType → Bool
  | .revisionHeader | .revisionAck | .syncComplete | .transferCancel => true
  | _ => false

/-- `inbox.fail`. -/
def fail (error : Failure) (s : Session) : Session :=
  { s with
    failure := s.failure.or (some error)
    waiting :=
      match s.waiting with
      | .expecting _ => .settled (.error error)
      | waiting => waiting }

/-- The synchronous part of `inbox.expect`. -/
def expect (type : MessageType) (s : Session) : Session :=
  match s.failure with
  | some error => { s with waiting := .settled (.error error) }
  | none =>
    if handled type then
      { s with waiting := .settled (.error (.session (.protocol .internal)
          ("cannot expect " ++ type.name ++ ": a handler is already registered for it"))) }
    else
      match s.queued.find? (·.type = type) with
      | some message =>
        { s with
          queued := s.queued.eraseP (·.type = type), waiting := .settled (.ok message) }
      | none => { s with waiting := .expecting type }

/-- A timer fires. -/
def timeout (s : Session) : Session :=
  match s.waiting with
  | .expecting type =>
    { s with waiting := .settled (.error (.session .timeout ("timed out waiting for " ++ type.name))) }
  | .completing =>
    { s with waiting :=
        .settled (.error (.session .timeout "timed out waiting for sync-complete from peer")) }
  | _ => s

/-! ## Inbound transfers -/

/-- `this.notifyProgress?.()`. -/
def notifyProgress (s : Session) : Session :=
  match s.drain with
  | .waiting => if s.expected = [] ∨ s.peerCompleted then { s with drain := .resolved } else s
  | _ => s

def dropExpected (revisionId : RevisionId) (s : Session) : Session :=
  { s with expected := s.expected.filter (· ≠ revisionId) }

def reject (revisionId : RevisionId) (reason : String) (s : Session) : Session × List Output :=
  ((s.dropExpected revisionId).notifyProgress,
    [.control (.revisionAck revisionId false (some reason)), .event (.rejected revisionId reason)])

/-- What a revision that was ingested leads to. -/
def accepted (revisionId : RevisionId) (s : Session) : Session × List Output :=
  ({ s.dropExpected revisionId with received := s.received ++ [revisionId] }.notifyProgress,
    [.control (.revisionAck revisionId true none), .event (.received revisionId)])

def dropAssembler (transferSeq : Nat) (s : Session) : Session :=
  { s with assemblers := s.assemblers.filter (·.1 ≠ transferSeq) }

def setAssembler (transferSeq : Nat) (header : InboundHeader) (assembler : ChunkAssembler)
    (s : Session) : Session :=
  { s with
    assemblers := s.assemblers.filter (·.1 ≠ transferSeq) ++ [(transferSeq, header, assembler)] }

def queueIngest (header : InboundHeader) (bytes : Bytes) (s : Session) : Session :=
  { s with inboundWork := s.inboundWork ++ [(header, bytes)] }

def maxOrphanFrames : Nat := 64

def onFrame (frame : ChunkFrame) (s : Session) : Session × List Output :=
  match s.assemblers.find? (·.1 = frame.transferSeq) with
  | none =>
    if s.orphanFrames.length < maxOrphanFrames then
      ({ s with orphanFrames := s.orphanFrames ++ [frame] }, [])
    else (s, [])
  | some (_, header, assembler) =>
    match assembler.accept frame with
    | (_, false) =>
      (s.dropAssembler frame.transferSeq).reject header.header.revisionId
        "chunk exceeded the declared size"
    | (assembler, true) =>
      if assembler.isComplete then
        ((s.dropAssembler frame.transferSeq).queueIngest header assembler.assemble, [])
      else (s.setAssembler frame.transferSeq header assembler, [])

/-- The loop of `onHeader` over the frames that beat their header, from the last one down. -/
def releaseOrphans (transferSeq : Nat) : Nat → Session → Session × List Output
  | 0, s => (s, [])
  | index + 1, s =>
    match s.orphanFrames[index]? with
    | some frame =>
      if frame.transferSeq = transferSeq then
        let (s, outputs) :=
          { s with orphanFrames := s.orphanFrames.eraseIdx index }.onFrame frame
        let (s, outputs') := releaseOrphans transferSeq index s
        (s, outputs ++ outputs')
      else releaseOrphans transferSeq index s
    | none => releaseOrphans transferSeq index s

/-- A header without chunks makes `new ChunkAssembler` throw, which changes nothing here. -/
def onHeader (header : InboundHeader) (s : Session) : Session × List Output :=
  match ChunkAssembler.create header.header.totalChunks header.header.sizeBytes with
  | .error _ => (s, [])
  | .ok assembler =>
    let s := s.setAssembler header.header.transferSeq header assembler
    releaseOrphans header.header.transferSeq s.orphanFrames.length s

/-! ## Channel callbacks -/

def onAck (revisionId : RevisionId) (accepted : Bool) (reason : Option String) (s : Session) :
    Session :=
  if s.ack = .waiting revisionId then { s with ack := .settled accepted reason } else s

def onComplete (message : Message) (s : Session) : Session :=
  notifyProgress
    { s with
      peerCompleted := true
      waiting :=
        match s.waiting with
        | .completing => .settled (.ok message)
        | waiting => waiting }

/-- The session that `onComplete` reports the progress of. -/
def peerDone (message : Message) (s : Session) : Session :=
  { s with
    peerCompleted := true
    waiting :=
      match s.waiting with
      | .completing => .settled (.ok message)
      | waiting => waiting }

theorem onComplete_eq (message : Message) (s : Session) :
    s.onComplete message = (s.peerDone message).notifyProgress :=
  rfl

def onCancel (transferSeq : Nat) (reason : String) (s : Session) : Session × List Output :=
  match s.assemblers.find? (·.1 = transferSeq) with
  | none => (s, [])
  | some (_, header, _) =>
    (((s.dropAssembler transferSeq).dropExpected header.header.revisionId).notifyProgress,
      [.event (.rejected header.header.revisionId reason)])

/-- A message without a handler goes to the waiter for its type, or is queued. -/
def enqueue (message : Message) (s : Session) : Session :=
  match s.waiting with
  | .expecting type =>
    if type = message.type then { s with waiting := .settled (.ok message) }
    else { s with queued := s.queued ++ [message] }
  | _ => { s with queued := s.queued ++ [message] }

/-- `inbox.accept` on what `parseMessage` makes of a control payload. -/
def accept : Except Failure Message → Session → Session × List Output
  | .error error, s => (s.fail error, [])
  | .ok (.error code message), s =>
    (s.fail (.session (.protocol code) ("peer reported: " ++ message)), [])
  | .ok (.revisionHeader header), s =>
    match s.remoteDeviceId with
    | none => (s.fail (malformed "revision-header arrived before hello"), [])
    | some fromDeviceId => s.onHeader ⟨header, fromDeviceId⟩
  | .ok (.revisionAck revisionId accepted reason), s => (s.onAck revisionId accepted reason, [])
  | .ok (.syncComplete vaultId), s => (s.onComplete (.syncComplete vaultId), [])
  | .ok (.transferCancel transferSeq reason), s => s.onCancel transferSeq reason
  | .ok message, s => (s.enqueue message, [])

/-- A payload of the bulk channel. -/
def acceptBulk (frame : Bytes) (s : Session) : Session × List Output :=
  match decodeChunkFrame frame with
  | some frame => s.onFrame frame
  | none => (s, [])

def onClose (s : Session) : Session :=
  s.fail (.session .closed "peer closed the control channel")


end Session

end PassVault
