import PassVault.Transport.PeerBridge

/-!
# What the bridge holds for its peers

What each operation does to the maps, and that a peer's entries are of connections to that peer.
-/

namespace PassVault

namespace BridgePeers

variable {s : BridgePeers} {peerId : PeerId}

/-- What is kept under a peer belongs to that peer. -/
structure Keyed (s : BridgePeers) : Prop where
  connections : ∀ p n, s.connection p = some n → s.peerOf n = some p
  control : ∀ p c, s.controlOf p = some c → (s.connectionOf c).bind s.peerOf = some p
  bulk : ∀ p c, s.bulkOf p = some c → (s.connectionOf c).bind s.peerOf = some p
  ready : ∀ p ∈ s.ready, (s.controlOf p).isSome

/-! ## Teardown -/

theorem owner_of_idle
    (h : s.controlOf peerId = none ∧ s.bulkOf peerId = none ∧ s.connection peerId = none) :
    s.owner peerId = none := by
  rw [owner, h.1, h.2.1, h.2.2]
  rfl

theorem connection_teardown (peerId q : PeerId) (s : BridgePeers) :
    (s.teardown peerId).1.connection q = if peerId = q then none else s.connection q := by
  unfold teardown
  split
  · rename_i hidle
    split
    · rename_i heq
      exact heq ▸ hidle.2.2
    · rfl
  · rw [connection, Table.find_delete]
    split <;> rfl

theorem controlOf_teardown (peerId q : PeerId) (s : BridgePeers) :
    (s.teardown peerId).1.controlOf q = if peerId = q then none else s.controlOf q := by
  unfold teardown
  split
  · rename_i hidle
    split
    · rename_i heq
      exact heq ▸ hidle.1
    · rfl
  · rw [controlOf, Table.find_delete]
    split <;> rfl

theorem bulkOf_teardown (peerId q : PeerId) (s : BridgePeers) :
    (s.teardown peerId).1.bulkOf q = if peerId = q then none else s.bulkOf q := by
  unfold teardown
  split
  · rename_i hidle
    split
    · rename_i heq
      exact heq ▸ hidle.2.1
    · rfl
  · rw [bulkOf, Table.find_delete]
    split <;> rfl

@[simp] theorem made_teardown (peerId : PeerId) (s : BridgePeers) :
    (s.teardown peerId).1.made = s.made := by
  unfold teardown
  split <;> rfl

@[simp] theorem channels_teardown (peerId : PeerId) (s : BridgePeers) :
    (s.teardown peerId).1.channels = s.channels := by
  unfold teardown
  split <;> rfl

@[simp] theorem peerOf_teardown (peerId : PeerId) (s : BridgePeers) :
    (s.teardown peerId).1.peerOf = s.peerOf := by
  funext n
  rw [peerOf, made_teardown, peerOf]

@[simp] theorem connectionOf_teardown (peerId : PeerId) (s : BridgePeers) :
    (s.teardown peerId).1.connectionOf = s.connectionOf := by
  funext c
  rw [connectionOf, channels_teardown, connectionOf]

theorem ready_teardown (hs : s.Keyed) (peerId q : PeerId) :
    q ∈ (s.teardown peerId).1.ready ↔ q ∈ s.ready ∧ q ≠ peerId := by
  unfold teardown
  split
  · rename_i hidle
    refine ⟨fun hq => ⟨hq, ?_⟩, fun hq => hq.1⟩
    rintro rfl
    have hcontrol := hs.ready q hq
    rw [hidle.1] at hcontrol
    cases hcontrol
  · simp [List.mem_filter]

theorem Keyed.teardown (hs : s.Keyed) (peerId : PeerId) : (s.teardown peerId).1.Keyed where
  connections p n h := by
    rw [connection_teardown] at h
    rw [peerOf_teardown]
    split at h
    · cases h
    · exact hs.connections p n h
  control p c h := by
    rw [controlOf_teardown] at h
    rw [peerOf_teardown, connectionOf_teardown]
    split at h
    · cases h
    · exact hs.control p c h
  bulk p c h := by
    rw [bulkOf_teardown] at h
    rw [peerOf_teardown, connectionOf_teardown]
    split at h
    · cases h
    · exact hs.bulk p c h
  ready p h := by
    obtain ⟨hready, hne⟩ := (ready_teardown hs peerId p).mp h
    rw [controlOf_teardown, if_neg (Ne.symm hne)]
    exact hs.ready p hready

theorem owner_of_held {n : Nat} (h : s.connection peerId = some n) : s.owner peerId = some n := by
  rw [owner, h]
  rfl

theorem peerOf_owner (hs : s.Keyed) {n : Nat} (h : s.owner peerId = some n) :
    s.peerOf n = some peerId := by
  unfold owner at h
  cases hconnection : s.connection peerId with
  | some m =>
    rw [hconnection] at h
    cases h
    exact hs.connections _ _ hconnection
  | none =>
    rw [hconnection, Option.none_or] at h
    obtain ⟨c, hc, hn⟩ := Option.bind_eq_some_iff.mp h
    cases hcontrol : s.controlOf peerId with
    | some c' =>
      rw [hcontrol] at hc
      cases hc
      have hpeer := hs.control _ _ hcontrol
      rwa [hn] at hpeer
    | none =>
      rw [hcontrol, Option.none_or] at hc
      have hpeer := hs.bulk _ _ hc
      rwa [hn] at hpeer

/-! ## New connections and channels -/

theorem controlOf_attach (peerId : PeerId) (channel : BridgeChannel) (s : BridgePeers)
    (q : PeerId) : (s.attach peerId channel).controlOf q =
      if channel.isBulk = false ∧ peerId = q then some s.channels.length else s.controlOf q := by
  unfold attach
  cases channel.isBulk with
  | true => rfl
  | false =>
    rw [controlOf]
    simp only [Bool.false_eq_true, if_false, true_and, Table.find_set]
    split <;> rfl

theorem bulkOf_attach (peerId : PeerId) (channel : BridgeChannel) (s : BridgePeers)
    (q : PeerId) : (s.attach peerId channel).bulkOf q =
      if channel.isBulk = true ∧ peerId = q then some s.channels.length else s.bulkOf q := by
  unfold attach
  cases channel.isBulk with
  | false => rfl
  | true =>
    rw [bulkOf]
    simp only [if_true, true_and, Table.find_set]
    split <;> rfl

theorem connectionOf_attach (peerId : PeerId) (channel : BridgeChannel) (s : BridgePeers) {c n : Nat}
    (h : s.connectionOf c = some n) : (s.attach peerId channel).connectionOf c = some n := by
  obtain ⟨ch, hch, rfl⟩ := Option.map_eq_some_iff.mp h
  obtain ⟨hlt, -⟩ := List.getElem?_eq_some_iff.mp hch
  exact Option.map_eq_some_iff.mpr ⟨ch, (List.getElem?_append_left hlt).trans hch, rfl⟩

theorem connectionOf_new (peerId : PeerId) (channel : BridgeChannel) (s : BridgePeers) :
    (s.attach peerId channel).connectionOf s.channels.length = some channel.connection := by
  rw [connectionOf, attach]
  simp

theorem peerOf_attach (peerId : PeerId) (channel : BridgeChannel) (s : BridgePeers) :
    (s.attach peerId channel).peerOf = s.peerOf := rfl

theorem Keyed.attach (hs : s.Keyed) {channel : BridgeChannel}
    (hpeer : s.peerOf channel.connection = some peerId) : (s.attach peerId channel).Keyed where
  connections := hs.connections
  control p c h := by
    rw [controlOf_attach] at h
    rw [peerOf_attach]
    split at h
    · rename_i hnew
      cases h
      rw [connectionOf_new]
      exact hnew.2 ▸ hpeer
    · have hold := hs.control p c h
      obtain ⟨n, hn, -⟩ := Option.bind_eq_some_iff.mp hold
      rwa [connectionOf_attach _ _ _ hn, ← hn]
  bulk p c h := by
    rw [bulkOf_attach] at h
    rw [peerOf_attach]
    split at h
    · rename_i hnew
      cases h
      rw [connectionOf_new]
      exact hnew.2 ▸ hpeer
    · have hold := hs.bulk p c h
      obtain ⟨n, hn, -⟩ := Option.bind_eq_some_iff.mp hold
      rwa [connectionOf_attach _ _ _ hn, ← hn]
  ready p h := by
    have hcontrol := hs.ready p h
    rw [controlOf_attach]
    split
    · rfl
    · exact hcontrol

/-- The connections after a new one, before its channels. -/
def register (connection : BridgeConnection) (s : BridgePeers) : BridgePeers :=
  { s with
    made := s.made ++ [connection]
    connections := s.connections.set (connection.peerId, s.made.length) }

theorem connection_register (connection : BridgeConnection) (s : BridgePeers) (q : PeerId) :
    (s.register connection).connection q =
      if connection.peerId = q then some s.made.length else s.connection q := by
  rw [BridgePeers.connection, register, Table.find_set]
  split <;> rfl

theorem peerOf_register (connection : BridgeConnection) {n : Nat} (h : s.peerOf n = some peerId) :
    (s.register connection).peerOf n = some peerId := by
  obtain ⟨c, hc, rfl⟩ := Option.map_eq_some_iff.mp h
  obtain ⟨hlt, -⟩ := List.getElem?_eq_some_iff.mp hc
  exact Option.map_eq_some_iff.mpr ⟨c, (List.getElem?_append_left hlt).trans hc, rfl⟩

theorem peerOf_new (connection : BridgeConnection) (s : BridgePeers) :
    (s.register connection).peerOf s.made.length = some connection.peerId := by
  rw [peerOf, register]
  simp

theorem Keyed.register (hs : s.Keyed) (connection : BridgeConnection) :
    (s.register connection).Keyed where
  connections p n h := by
    rw [connection_register] at h
    split at h
    · rename_i hpeer
      cases h
      exact hpeer ▸ peerOf_new connection s
    · exact peerOf_register connection (hs.connections p n h)
  control p c h := by
    obtain ⟨n, hn, hpeer⟩ := Option.bind_eq_some_iff.mp (hs.control p c h)
    exact Option.bind_eq_some_iff.mpr ⟨n, hn, peerOf_register connection hpeer⟩
  bulk p c h := by
    obtain ⟨n, hn, hpeer⟩ := Option.bind_eq_some_iff.mp (hs.bulk p c h)
    exact Option.bind_eq_some_iff.mpr ⟨n, hn, peerOf_register connection hpeer⟩
  ready := hs.ready

theorem openConnection_eq (connection : BridgeConnection) (initiator : Bool) (s : BridgePeers) :
    s.openConnection connection initiator =
      if initiator then
        ((s.register connection).attach connection.peerId ⟨s.made.length, false⟩).attach
          connection.peerId ⟨s.made.length, true⟩
      else s.register connection := rfl

theorem Keyed.openConnection (hs : s.Keyed) (connection : BridgeConnection) (initiator : Bool) :
    (s.openConnection connection initiator).Keyed := by
  rw [openConnection_eq]
  have hregister := hs.register connection
  split
  · exact (hregister.attach (peerOf_new connection s)).attach (peerOf_new connection s)
  · exact hregister

theorem connection_openConnection (connection : BridgeConnection) (initiator : Bool)
    (s : BridgePeers) (q : PeerId) : (s.openConnection connection initiator).connection q =
      if connection.peerId = q then some s.made.length else s.connection q := by
  rw [openConnection_eq]
  split <;> exact connection_register connection s q

theorem made_openConnection (connection : BridgeConnection) (initiator : Bool)
    (s : BridgePeers) : (s.openConnection connection initiator).made = s.made ++ [connection] := by
  rw [openConnection_eq]
  split <;> rfl

theorem Keyed.setOpen (hs : s.Keyed) (isOpen : Nat → Bool) : { s with isOpen := isOpen }.Keyed :=
  ⟨hs.connections, hs.control, hs.bulk, hs.ready⟩

theorem Keyed.maybeReady (hs : s.Keyed) (peerId : PeerId) : (s.maybeReady peerId).1.Keyed := by
  unfold BridgePeers.maybeReady
  split
  · rename_i hunreported
    refine ⟨hs.connections, hs.control, hs.bulk, fun p hp => ?_⟩
    rcases List.mem_append.mp hp with hp | hp
    · exact hs.ready p hp
    · obtain rfl := List.mem_singleton.mp hp
      simp only [unreported, Bool.and_eq_true, Option.any_eq_true] at hunreported
      obtain ⟨⟨⟨c, hc, -⟩, -⟩, -⟩ := hunreported
      exact Option.isSome_iff_exists.mpr ⟨c, hc⟩
  · exact hs

/-- The first of the peers, when it has no connection. -/
def nextPeer (s : BridgePeers) : List PeerId → Option PeerId
  | [] => none
  | peerId :: _ => if (s.connection peerId).isSome then none else some peerId

theorem connection_of_nextPeer {peerIds : List PeerId} (h : s.nextPeer peerIds = some peerId) :
    s.connection peerId = none := by
  unfold nextPeer at h
  split at h
  · cases h
  · split at h
    · cases h
    · rename_i hnone
      cases h
      simpa using hnone

/-- The loop opens a connection to the next peer, if there is to be one. -/
theorem peers_openNext (room : BridgeRoom) (s : BridgePeers) (peerIds : List PeerId) :
    (PeerBridge.openNext room s peerIds).1 =
      (s.nextPeer peerIds).elim s fun p => s.openConnection ⟨p, room⟩ true := by
  cases peerIds with
  | nil => rfl
  | cons p rest =>
    rw [PeerBridge.openNext, nextPeer]
    split <;> rfl

end BridgePeers

namespace PeerBridge

theorem peers_applySignal (peerId : PeerId) (kind : SignalKind) (s : PeerBridge) :
    (s.applySignal peerId kind).peers = s.peers := by
  unfold applySignal
  split <;> rfl

end PeerBridge

end PassVault
