import Mathlib.Logic.Function.Basic
import PassVault.Lib.Machine
import PassVault.Signaling.Rooms

/-!
# The bridge to WebRTC

`PeerBridge` of `packages/transport/src/peerBridge.ts`, one event at a time. Sockets, connections,
data channels and calls of `handleSignal` are numbered in the order they come; any of them may raise
an event at any time, and an operation that is awaited settles whenever it wants. What the bridge
forwards from and to the channels is left out.
-/

namespace PassVault

/-- A `Rendezvous`. -/
structure BridgeRoom where
  signalUrl : String
  roomId : RoomId
  inviteToken : String
deriving DecidableEq, Repr

/-- What `payload.type` says. -/
inductive SignalKind where
  | offer
  | answer
  | ice
  | other
deriving DecidableEq, Repr

inductive BridgeNotice where
  | lost (signalUrl detail : String)
  | noDirectConnection
  | refused (message : String)
deriving DecidableEq, Repr

/-- The text, where `serverName` is the host of an address. -/
def BridgeNotice.text (serverName : String → String) : BridgeNotice → String
  | lost signalUrl detail =>
    if detail.isEmpty then
      "Lost the connection to " ++ serverName signalUrl ++
        ". Trying again automatically — check that this device is online, and that the address" ++
        " under Devices → Connection server is right."
    else
      serverName signalUrl ++ " closed the connection: " ++ detail ++ ". Trying again automatically."
  | noDirectConnection =>
    "Both devices found each other, but no direct connection could be made — some networks," ++
      " mobile ones especially, block that. Add a relay under Devices → Connection server to get" ++
      " past it."
  | refused message =>
    "The connection server would not let this device in: " ++ message ++
      ". If you were pairing, the code may have expired — ask for a new one."

/-- What the bridge does to the world. Descriptions, and reports that a peer has come or gone, are
told with their connection, of which the code says nothing. -/
inductive BridgeOutput where
  | status (text : String)
  | notice (notice : BridgeNotice)
  | join (socket : Nat) (room : BridgeRoom)
  | signal (socket : Nat) (targetPeerId : PeerId) (kind : SignalKind) (connection : Nat)
  | closeSocket (socket : Nat)
  | closeChannel (channel : Nat)
  | closeConnection (connection : Nat)
  /-- `peerOpen` and `onPeer`. -/
  | peerOpen (peerId : PeerId) (connection : Option Nat)
  /-- `peerClosed` and `onClosed`. -/
  | peerClosed (peerId : PeerId) (connection : Option Nat)
deriving DecidableEq, Repr

/-- What a call of `handleSignal` waits for, and what it does then. The room is that of the socket
the message came from; no code looks at it. -/
inductive BridgeTask where
  /-- The loop over the peers of a room is to go on. -/
  | connecting (rest : List PeerId) (room : BridgeRoom)
  | creatingOffer (connection : Nat) (peerId : PeerId) (rest : List PeerId) (room : BridgeRoom)
  | describingOffer (connection : Nat) (peerId : PeerId) (rest : List PeerId) (room : BridgeRoom)
  | readingOffer (connection : Nat) (peerId : PeerId)
  | creatingAnswer (connection : Nat) (peerId : PeerId)
  | describingAnswer (connection : Nat) (peerId : PeerId)
deriving DecidableEq, Repr

/-- An `RTCPeerConnection`. Nothing looks at the room of the announcement that it was made for. -/
structure BridgeConnection where
  peerId : PeerId
  room : BridgeRoom
deriving DecidableEq, Repr

/-- An `RTCDataChannel`. -/
structure BridgeChannel where
  connection : Nat
  isBulk : Bool
deriving DecidableEq, Repr

/-- A map with peers as its keys. -/
abbrev PeerMap := Table (Prod.fst : PeerId × Nat → PeerId)

/-- The socket and when to replace it. -/
structure BridgeLink where
  room : Option BridgeRoom
  socket : Option Nat
  /-- The rooms of the sockets made so far. -/
  sockets : List BridgeRoom
  /-- Is the current socket still to open? -/
  connecting : Bool
  closingDeliberately : Bool
  retryDelayMs : Nat
  /-- A timer is armed. -/
  retryTimer : Bool
  outageReported : Bool

structure BridgePeers where
  connections : PeerMap
  control : PeerMap
  bulk : PeerMap
  ready : List PeerId
  made : List BridgeConnection
  channels : List BridgeChannel
  /-- `readyState` is `open`. -/
  isOpen : Nat → Bool

structure PeerBridge where
  link : BridgeLink
  peers : BridgePeers
  started : Nat
  tasks : Nat → Option BridgeTask
  /-- The peers that a server has announced, with the room. Nothing looks at them. -/
  announced : List (BridgeRoom × PeerId)

inductive ConnectionState where
  | failed
  | closed
  | other
deriving DecidableEq, Repr

/-- What happens to the bridge. Where a socket is made, `made` says whether the constructor
returns. -/
inductive BridgeEvent where
  | connect (room : BridgeRoom) (made : Bool)
  | disconnect
  | wake (hidden made : Bool)
  | timer (made : Bool)
  | socketOpen (socket : Nat)
  /-- An `error` or a `close`, with its reason. -/
  | socketFailed (socket : Nat) (detail : String)
  | message (socket : Nat) (message : ServerSignalMessage SignalKind)
  /-- What a call waits for settles. -/
  | settle (task : Nat) (resolved : Bool)
  | iceCandidate (connection : Nat)
  | connectionState (connection : Nat) (state : ConnectionState)
  | dataChannel (connection : Nat) (isBulk : Bool)
  /-- The `readyState` of a channel changes. -/
  | channelState (channel : Nat) (isOpen : Bool)
  | channelOpen (channel : Nat)
  | channelClose (channel : Nat)

/-! ## The socket -/

namespace BridgeLink

def firstRetryMs : Nat := 1000

def maxRetryMs : Nat := 30000

def new : BridgeLink where
  room := none
  socket := none
  sockets := []
  connecting := false
  closingDeliberately := false
  retryDelayMs := 0
  retryTimer := false
  outageReported := false

/-- Try again later, backing off. -/
def scheduleRetry (detail : String) (stillSyncing : Bool) (s : BridgeLink) :
    BridgeLink × List BridgeOutput :=
  match s.room with
  | none => (s, [])
  | some room =>
    if s.retryTimer then (s, [])
    else
      let retryDelayMs :=
        if s.retryDelayMs = 0 then firstRetryMs else min (s.retryDelayMs * 2) maxRetryMs
      let outputs :=
        if stillSyncing then []
        else
          .status "Reconnecting…" ::
            if s.outageReported then [] else [.notice (.lost room.signalUrl detail)]
      ({ s with
          retryDelayMs, retryTimer := true, outageReported := s.outageReported || !stillSyncing },
        outputs)

def openSocket (made stillSyncing : Bool) (s : BridgeLink) : BridgeLink × List BridgeOutput :=
  match s.room with
  | none => (s, [])
  | some room =>
    let status : BridgeOutput :=
      .status (if s.retryDelayMs = 0 then "Connecting…" else "Reconnecting…")
    if made then
      ({ s with
          socket := some s.sockets.length, sockets := s.sockets ++ [room], connecting := true },
        [status])
    else
      let (s, outputs) := s.scheduleRetry "" stillSyncing
      (s, status :: outputs)

/-- The timer fires. -/
def onTimer (made stillSyncing : Bool) (s : BridgeLink) : BridgeLink × List BridgeOutput :=
  { s with retryTimer := false }.openSocket made stillSyncing

/-- Come back immediately when the device plainly just woke up. -/
def wake (hidden made stillSyncing : Bool) (s : BridgeLink) : BridgeLink × List BridgeOutput :=
  if s.room.isNone || s.socket.isSome || hidden then (s, [])
  else { s with retryTimer := false, retryDelayMs := 0 }.openSocket made stillSyncing

def onOpen (socket : Nat) (room : BridgeRoom) (s : BridgeLink) : BridgeLink × List BridgeOutput :=
  ({ s with
      retryDelayMs := 0, outageReported := false
      connecting := if s.socket = some socket then false else s.connecting },
    [.status "Finding your other device…", .join socket room])

/-- One way out, however the socket died. -/
def failed (socket : Nat) (detail : String) (stillSyncing : Bool) (s : BridgeLink) :
    BridgeLink × List BridgeOutput :=
  if s.closingDeliberately || s.socket ≠ some socket then (s, [])
  else { s with socket := none }.scheduleRetry detail stillSyncing

/-- What `disconnect` does to the socket. -/
def leave (s : BridgeLink) : BridgeLink × List BridgeOutput :=
  ({ s with closingDeliberately := true, room := none, retryTimer := false, socket := none },
    (s.socket.map BridgeOutput.closeSocket).toList)

/-- What `connect` does after `disconnect`. -/
def enter (room : BridgeRoom) (made stillSyncing : Bool) (s : BridgeLink) :
    BridgeLink × List BridgeOutput :=
  { s with
    room := some room, retryDelayMs := 0, outageReported := false
    closingDeliberately := false }.openSocket made stillSyncing

end BridgeLink

/-! ## The peers -/

namespace BridgePeers

def new : BridgePeers := ⟨.empty _, .empty _, .empty _, [], [], [], fun _ => false⟩

def connection (s : BridgePeers) (peerId : PeerId) : Option Nat :=
  (s.connections.find peerId).map (·.2)

def controlOf (s : BridgePeers) (peerId : PeerId) : Option Nat := (s.control.find peerId).map (·.2)

def bulkOf (s : BridgePeers) (peerId : PeerId) : Option Nat := (s.bulk.find peerId).map (·.2)

/-- The peer of a connection. -/
def peerOf (s : BridgePeers) (connection : Nat) : Option PeerId := s.made[connection]?.map (·.peerId)

/-- The connection of a channel. -/
def connectionOf (s : BridgePeers) (channel : Nat) : Option Nat :=
  s.channels[channel]?.map (·.connection)

/-- The connection that is held for a peer, or else that of a channel that is. -/
def owner (s : BridgePeers) (peerId : PeerId) : Option Nat :=
  (s.connection peerId).or (((s.controlOf peerId).or (s.bulkOf peerId)).bind s.connectionOf)

/-- Both channels are open, and nobody has been told. -/
def unreported (s : BridgePeers) (peerId : PeerId) : Bool :=
  (s.controlOf peerId).any s.isOpen && (s.bulkOf peerId).any s.isOpen && peerId ∉ s.ready

/-- Forget a peer, once. -/
def teardown (peerId : PeerId) (s : BridgePeers) : BridgePeers × List BridgeOutput :=
  if s.controlOf peerId = none ∧ s.bulkOf peerId = none ∧ s.connection peerId = none then (s, [])
  else
    ({ s with
        ready := s.ready.filter (· ≠ peerId), control := s.control.delete peerId
        bulk := s.bulk.delete peerId, connections := s.connections.delete peerId },
      ((s.controlOf peerId).map BridgeOutput.closeChannel).toList ++
        ((s.bulkOf peerId).map BridgeOutput.closeChannel).toList ++
        ((s.connection peerId).map BridgeOutput.closeConnection).toList ++
        [.peerClosed peerId (s.owner peerId)])

/-- `disconnect` tears down every connection. -/
def teardownAll : List PeerId → BridgePeers → BridgePeers × List BridgeOutput
  | [], s => (s, [])
  | peerId :: rest, s =>
    let (s, outputs) := s.teardown peerId
    let (s, outputs') := s.teardownAll rest
    (s, outputs ++ outputs')

/-- A new channel of a connection, under the key of its peer. -/
def attach (peerId : PeerId) (channel : BridgeChannel) (s : BridgePeers) : BridgePeers :=
  let entry := (peerId, s.channels.length)
  { s with
    channels := s.channels ++ [channel]
    control := if channel.isBulk then s.control else s.control.set entry
    bulk := if channel.isBulk then s.bulk.set entry else s.bulk }

/-- A new connection, with its channels when this side is to create them. -/
def openConnection (connection : BridgeConnection) (initiator : Bool) (s : BridgePeers) :
    BridgePeers :=
  let number := s.made.length
  let s := { s with
    made := s.made ++ [connection]
    connections := s.connections.set (connection.peerId, number) }
  if initiator then
    (s.attach connection.peerId ⟨number, false⟩).attach connection.peerId ⟨number, true⟩
  else s

def maybeReady (peerId : PeerId) (s : BridgePeers) : BridgePeers × List BridgeOutput :=
  if s.unreported peerId then
    ({ s with ready := s.ready ++ [peerId] }, [.peerOpen peerId (s.owner peerId)])
  else (s, [])

end BridgePeers

/-! ## The handlers -/

namespace PeerBridge

def new : PeerBridge := ⟨.new, .new, 0, fun _ => none, []⟩

/-- Does a sync go on? -/
def stillSyncing (s : PeerBridge) : Bool := !s.peers.ready.isEmpty

def onLink (result : BridgeLink × List BridgeOutput) (s : PeerBridge) :
    PeerBridge × List BridgeOutput :=
  ({ s with link := result.1 }, result.2)

def onPeers (result : BridgePeers × List BridgeOutput) (s : PeerBridge) :
    PeerBridge × List BridgeOutput :=
  ({ s with peers := result.1 }, result.2)

/-- The room of a socket. -/
def roomOf (s : PeerBridge) (socket : Nat) : Option BridgeRoom := s.link.sockets[socket]?

def disconnect (s : PeerBridge) : PeerBridge × List BridgeOutput :=
  let (link, outputs) := s.link.leave
  let (peers, closed) := s.peers.teardownAll (s.peers.connections.rows.map (·.1))
  ({ s with link, peers }, closed ++ outputs)

def connect (room : BridgeRoom) (made : Bool) (s : PeerBridge) : PeerBridge × List BridgeOutput :=
  let (s, outputs) := s.disconnect
  let (link, outputs') := s.link.enter room made s.stillSyncing
  ({ s with link }, outputs ++ outputs')

/-- `undefined` when it throws, as it does on a socket that has not opened. -/
def sendSignal (peerId : PeerId) (kind : SignalKind) (connection : Nat) (s : PeerBridge) :
    Option (List BridgeOutput) :=
  match s.link.socket with
  | none => some []
  | some socket => if s.link.connecting then none else some [.signal socket peerId kind connection]

/-- The next turn of the loop over the peers of a room. There is an `await` in it even when the peer
has a connection. -/
def openNext (room : BridgeRoom) (s : BridgePeers) : List PeerId → BridgePeers × Option BridgeTask
  | [] => (s, none)
  | peerId :: rest =>
    if (s.connection peerId).isSome then (s, some (.connecting rest room))
    else (s.openConnection ⟨peerId, room⟩ true, some (.creatingOffer s.made.length peerId rest room))

def setTask (i : Nat) (task : Option BridgeTask) (s : PeerBridge) : PeerBridge :=
  { s with tasks := Function.update s.tasks i task }

/-- A call that has to wait. -/
def startTask (task : Option BridgeTask) (s : PeerBridge) : PeerBridge :=
  { s.setTask s.started task with started := s.started + 1 }

def announce (room : BridgeRoom) (peerIds : List PeerId) (s : PeerBridge) : PeerBridge :=
  { s with announced := s.announced ++ peerIds.map (room, ·) }

def applySignal (peerId : PeerId) (kind : SignalKind) (s : PeerBridge) : PeerBridge :=
  match s.peers.connection peerId, kind with
  | some connection, .offer => s.startTask (some (.readingOffer connection peerId))
  | _, _ => s

def handleSignal (room : BridgeRoom) (s : PeerBridge) :
    ServerSignalMessage SignalKind → PeerBridge × List BridgeOutput
  | .joined _ _ existingPeerIds =>
    let (peers, task) := openNext room s.peers existingPeerIds
    (({ s with peers }.announce room existingPeerIds).startTask task,
      [.status (if existingPeerIds.isEmpty then "Waiting for your other device"
        else "Connecting to your other device…")])
  | .peerJoined peerId =>
    let peers :=
      if (s.peers.connection peerId).isSome then s.peers
      else s.peers.openConnection ⟨peerId, room⟩ false
    ({ s with peers }.announce room [peerId], [])
  | .peerLeft peerId =>
    if peerId ∈ s.peers.ready then (s, []) else s.onPeers (s.peers.teardown peerId)
  | .signal fromPeerId kind => (s.applySignal fromPeerId kind, [])
  | .error message => (s, [.status "Server refused", .notice (.refused message)])

/-- A call goes on when what it waited for has resolved, and ends when it is rejected. -/
def onSettle (i : Nat) (resolved : Bool) (task : BridgeTask) (s : PeerBridge) :
    PeerBridge × List BridgeOutput :=
  match task, resolved with
  | .connecting rest room, _ =>
    let (peers, task) := openNext room s.peers rest
    ({ s with peers }.setTask i task, [])
  | .creatingOffer connection peerId rest room, true =>
    (s.setTask i (some (.describingOffer connection peerId rest room)), [])
  | .describingOffer connection peerId rest room, true =>
    match s.sendSignal peerId .offer connection with
    | none => (s.setTask i none, [])
    | some outputs => (s.setTask i (some (.connecting rest room)), outputs)
  | .readingOffer connection peerId, true =>
    (s.setTask i (some (.creatingAnswer connection peerId)), [])
  | .creatingAnswer connection peerId, true =>
    (s.setTask i (some (.describingAnswer connection peerId)), [])
  | .describingAnswer connection peerId, true =>
    (s.setTask i none, (s.sendSignal peerId .answer connection).getD [])
  | _, false => (s.setTask i none, [])

def onConnectionState (peerId : PeerId) (state : ConnectionState) (s : PeerBridge) :
    PeerBridge × List BridgeOutput :=
  match state with
  | .failed =>
    let (s, outputs) := s.onPeers (s.peers.teardown peerId)
    (s, .status "Couldn't connect" :: .notice .noDirectConnection :: outputs)
  | .closed => s.onPeers (s.peers.teardown peerId)
  | .other => (s, [])

/-- The peer of a connection. -/
def peerOf (s : PeerBridge) (connection : Nat) : Option PeerId := s.peers.peerOf connection

/-- The peer of a channel. -/
def channelPeer (s : PeerBridge) (channel : Nat) : Option PeerId :=
  (s.peers.connectionOf channel).bind s.peerOf

/-- One event, of things that are there. -/
def step (s : PeerBridge) : BridgeEvent → Option (PeerBridge × List BridgeOutput)
  | .connect room made => some (s.connect room made)
  | .disconnect => some s.disconnect
  | .wake hidden made => some (s.onLink (s.link.wake hidden made s.stillSyncing))
  | .timer made =>
    if s.link.retryTimer then some (s.onLink (s.link.onTimer made s.stillSyncing)) else none
  | .socketOpen socket => (s.roomOf socket).map fun room => s.onLink (s.link.onOpen socket room)
  | .socketFailed socket detail =>
    (s.roomOf socket).map fun _ => s.onLink (s.link.failed socket detail s.stillSyncing)
  | .message socket message => (s.roomOf socket).map fun room => s.handleSignal room message
  | .settle i resolved => (s.tasks i).map fun task => s.onSettle i resolved task
  | .iceCandidate connection =>
    (s.peerOf connection).map fun peerId => (s, (s.sendSignal peerId .ice connection).getD [])
  | .connectionState connection state =>
    (s.peerOf connection).map fun peerId => s.onConnectionState peerId state
  | .dataChannel connection isBulk =>
    (s.peerOf connection).map fun peerId =>
      ({ s with peers := s.peers.attach peerId ⟨connection, isBulk⟩ }, [])
  | .channelState channel isOpen =>
    (s.channelPeer channel).map fun _ =>
      ({ s with peers := { s.peers with
          isOpen := Function.update s.peers.isOpen channel isOpen } }, [])
  | .channelOpen channel =>
    (s.channelPeer channel).map fun peerId => s.onPeers (s.peers.maybeReady peerId)
  | .channelClose channel =>
    (s.channelPeer channel).map fun peerId => s.onPeers (s.peers.teardown peerId)

/-- The bridge after an event. -/
def next (s : PeerBridge) (event : BridgeEvent) : Option PeerBridge := (s.step event).map (·.1)

end PeerBridge

end PassVault
