import PassVault.Transport.BridgeEvents

/-!
# Leaving a room

What the bridge does for one room may go on when it has left it or is in another one. When nothing of
it comes through.
-/

namespace PassVault

open Machine

namespace BridgePeers

variable {s : BridgePeers} {room : Option BridgeRoom} {announced more : List (BridgeRoom × PeerId)}
  {peerId : PeerId}

def Empty (s : BridgePeers) : Prop :=
  ∀ p, s.connection p = none ∧ s.controlOf p = none ∧ s.bulkOf p = none

/-- Outside a room nothing is held, and inside only connections to peers announced for it. -/
structure InRoom (room : Option BridgeRoom) (announced : List (BridgeRoom × PeerId))
    (s : BridgePeers) : Prop where
  outside : room = none → s.Empty
  inside : ∀ p n, s.connection p = some n → ∃ r, room = some r ∧ (r, p) ∈ announced

theorem InRoom.announce (hs : s.InRoom room announced) : s.InRoom room (announced ++ more) := by
  refine ⟨hs.outside, fun p n h => ?_⟩
  obtain ⟨r, hr, hp⟩ := hs.inside p n h
  exact ⟨r, hr, List.mem_append_left _ hp⟩

theorem Empty.teardown (hs : s.Empty) (peerId : PeerId) : (s.teardown peerId).1.Empty := by
  intro p
  rw [connection_teardown, controlOf_teardown, bulkOf_teardown]
  split
  · exact ⟨rfl, rfl, rfl⟩
  · exact hs p

theorem InRoom.teardown (hs : s.InRoom room announced) (peerId : PeerId) :
    (s.teardown peerId).1.InRoom room announced := by
  refine ⟨fun hroom => (hs.outside hroom).teardown peerId, fun p n h => ?_⟩
  rw [connection_teardown] at h
  split at h
  · cases h
  · exact hs.inside p n h

theorem InRoom.openConnection (hs : s.InRoom room announced) {connection : BridgeConnection}
    {r : BridgeRoom} (hroom : room = some r) (hannounced : (r, connection.peerId) ∈ announced)
    (initiator : Bool) : (s.openConnection connection initiator).InRoom room announced := by
  refine ⟨fun hnone => ?_, fun p n h => ?_⟩
  · rw [hroom] at hnone
    cases hnone
  · rw [connection_openConnection] at h
    split at h
    · rename_i hp
      exact ⟨r, hroom, hp ▸ hannounced⟩
    · exact hs.inside p n h

theorem InRoom.attach (hs : s.InRoom room announced) (hroom : room.isSome) (peerId : PeerId)
    (channel : BridgeChannel) : (s.attach peerId channel).InRoom room announced := by
  refine ⟨fun hnone => ?_, hs.inside⟩
  rw [hnone] at hroom
  cases hroom

theorem InRoom.maybeReady (hs : s.InRoom room announced) (peerId : PeerId) :
    (s.maybeReady peerId).1.InRoom room announced := by
  unfold BridgePeers.maybeReady
  split
  · exact ⟨hs.outside, hs.inside⟩
  · exact hs

/-- What `teardown` does to one map, `teardownAll` does for each peer. -/
theorem map_teardownAll {f : BridgePeers → PeerId → Option Nat}
    (hf : ∀ p q s, f (BridgePeers.teardown p s).1 q = if p = q then none else f s q)
    (peerIds : List PeerId) (s : BridgePeers) (q : PeerId) :
    f (s.teardownAll peerIds).1 q = if q ∈ peerIds then none else f s q := by
  induction peerIds generalizing s with
  | nil => rw [if_neg List.not_mem_nil, teardownAll]
  | cons p rest ih =>
    rw [teardownAll]
    dsimp only
    rw [ih, hf]
    by_cases hp : p = q
    · rw [if_pos hp, ite_self, if_pos (List.mem_cons.mpr (.inl hp.symm))]
    · rw [if_neg hp]
      simp only [List.mem_cons, Ne.symm hp, false_or]

/-- The peers with a connection. -/
theorem mem_connected {q : PeerId} :
    q ∈ s.connections.rows.map (·.1) ↔ (s.connection q).isSome := by
  rw [connection, Option.isSome_map, Option.isSome_iff_ne_none, ne_eq, Table.find_eq_none, not_not]

theorem map_leave {f : BridgePeers → PeerId → Option Nat}
    (hf : ∀ p q s, f (BridgePeers.teardown p s).1 q = if p = q then none else f s q)
    (s : BridgePeers) (q : PeerId) :
    f (s.teardownAll (s.connections.rows.map (·.1))).1 q =
      if (s.connection q).isSome then none else f s q :=
  (map_teardownAll hf _ s q).trans (if_congr mem_connected rfl rfl)

theorem Keyed.teardownAll (hs : s.Keyed) (peerIds : List PeerId) :
    (s.teardownAll peerIds).1.Keyed := by
  induction peerIds generalizing s with
  | nil => exact hs
  | cons p rest ih => exact ih (hs.teardown p)

end BridgePeers

namespace PeerBridge

open BridgePeers

variable {s t : PeerBridge} {event : BridgeEvent} {outputs : List BridgeOutput}

/-- The peers that a message announces. -/
def announces (s : PeerBridge) : BridgeEvent → List (BridgeRoom × PeerId)
  | .message socket (.joined _ _ existingPeerIds) =>
    (s.roomOf socket).elim [] fun room => existingPeerIds.map (room, ·)
  | .message socket (.peerJoined peerId) => (s.roomOf socket).elim [] fun room => [(room, peerId)]
  | _ => []

/-- The peer that a connection is opened to. -/
def opening (s : PeerBridge) : BridgeEvent → Option PeerId
  | .message socket (.joined _ _ existingPeerIds) =>
    (s.roomOf socket).bind fun _ => s.peers.nextPeer existingPeerIds
  | .message socket (.peerJoined peerId) =>
    (s.roomOf socket).bind fun _ => s.peers.nextPeer [peerId]
  | .settle i _ =>
    match s.tasks i with
    | some (.connecting rest _) => s.peers.nextPeer rest
    | _ => none
  | _ => none

/-- The room of the announcement that a connection was made for. -/
def roomFor (s : PeerBridge) (connection : Nat) : Option BridgeRoom :=
  s.peers.made[connection]?.map (·.room)

/-- What a step does to the room and to what is held. -/
inductive RoomStep (s : PeerBridge) (event : BridgeEvent) (t : PeerBridge) : Prop where
  | leave (hleaves : leaves event = true)
    (hpeers : t.peers = (s.peers.teardownAll (s.peers.connections.rows.map (·.1))).1)
    (hroom : t.link.room = none ↔ event = .disconnect)
  | connects (p : PeerId) (r : BridgeRoom) (initiator : Bool) (hopening : s.opening event = some p)
    (hpeers : t.peers = s.peers.openConnection ⟨p, r⟩ initiator)
    (hroom : t.link.room = s.link.room) (hannounced : t.announced = s.announced ++ s.announces event)
  | attach (n : Nat) (isBulk : Bool) (p : PeerId) (hevent : event = .dataChannel n isBulk)
    (hpeer : s.peerOf n = some p) (hpeers : t.peers = s.peers.attach p ⟨n, isBulk⟩)
    (hroom : t.link.room = s.link.room) (hannounced : t.announced = s.announced)
  | other (hopening : s.opening event = none) (hleaves : leaves event = false)
    (hpeers : ∀ room announced, s.peers.InRoom room announced → t.peers.InRoom room announced)
    (hroom : t.link.room = s.link.room) (hannounced : t.announced = s.announced ++ s.announces event)

theorem room_scheduleRetry (detail : String) (stillSyncing : Bool) (link : BridgeLink) :
    (link.scheduleRetry detail stillSyncing).1.room = link.room := by
  unfold BridgeLink.scheduleRetry
  split
  · rfl
  · split <;> rfl

theorem room_openSocket (made stillSyncing : Bool) (link : BridgeLink) :
    (link.openSocket made stillSyncing).1.room = link.room := by
  unfold BridgeLink.openSocket
  split
  · rfl
  · cases made with
    | true => rfl
    | false => exact room_scheduleRetry _ _ _

theorem room_wake (hidden made stillSyncing : Bool) (link : BridgeLink) :
    (link.wake hidden made stillSyncing).1.room = link.room := by
  unfold BridgeLink.wake
  split
  · rfl
  · exact room_openSocket _ _ _

theorem room_failed (socket : Nat) (detail : String) (stillSyncing : Bool) (link : BridgeLink) :
    (link.failed socket detail stillSyncing).1.room = link.room := by
  unfold BridgeLink.failed
  split
  · rfl
  · exact room_scheduleRetry _ _ _

theorem roomStep_message {socket : Nat} {room : BridgeRoom}
    {message : ServerSignalMessage SignalKind} (hroom : s.roomOf socket = some room)
    (h : s.handleSignal room message = (t, outputs)) : RoomStep s (.message socket message) t := by
  cases message with
  | joined roomId peerId existingPeerIds =>
    cases h
    have hannounces : s.announces (.message socket (.joined roomId peerId existingPeerIds)) =
        existingPeerIds.map (room, ·) := by rw [announces, hroom]; rfl
    have hopening : s.opening (.message socket (.joined roomId peerId existingPeerIds)) =
        s.peers.nextPeer existingPeerIds := by rw [opening, hroom]; rfl
    have hpeers := peers_openNext room s.peers existingPeerIds
    cases hnext : s.peers.nextPeer existingPeerIds with
    | none =>
      rw [hnext] at hpeers
      refine .other (hopening.trans hnext) rfl (fun _ _ hs => ?_) rfl (by rw [hannounces]; rfl)
      exact hpeers ▸ hs
    | some p =>
      rw [hnext] at hpeers
      exact .connects p room true (hopening.trans hnext) hpeers rfl (by rw [hannounces]; rfl)
  | peerJoined peerId =>
    have hannounces : s.announces (.message socket (.peerJoined peerId)) = [(room, peerId)] := by
      rw [announces, hroom]
      rfl
    have hopening : s.opening (.message socket (.peerJoined peerId)) =
        s.peers.nextPeer [peerId] := by rw [opening, hroom]; rfl
    rw [handleSignal] at h
    cases hheld : s.peers.connection peerId with
    | some n =>
      rw [hheld] at h
      cases h
      have hnext : s.peers.nextPeer [peerId] = none := by simp [nextPeer, hheld]
      exact .other (hopening.trans hnext) rfl (fun _ _ hs => hs) rfl (by rw [hannounces]; rfl)
    | none =>
      rw [hheld] at h
      cases h
      have hnext : s.peers.nextPeer [peerId] = some peerId := by simp [nextPeer, hheld]
      exact .connects peerId room false (hopening.trans hnext) rfl rfl (by rw [hannounces]; rfl)
  | peerLeft peerId =>
    rw [handleSignal] at h
    split at h
    · cases h
      exact .other rfl rfl (fun _ _ hs => hs) rfl (List.append_nil _).symm
    · cases h
      exact .other rfl rfl (fun _ _ hs => hs.teardown peerId) rfl (List.append_nil _).symm
  | signal fromPeerId kind =>
    cases h
    refine .other rfl rfl (fun _ _ hs => ?_) ?_ ?_
    · rw [peers_applySignal]
      exact hs
    · unfold applySignal
      split <;> rfl
    · unfold applySignal
      split <;> exact (List.append_nil _).symm
  | error message =>
    cases h
    exact .other rfl rfl (fun _ _ hs => hs) rfl (List.append_nil _).symm

theorem roomStep_settle {i : Nat} {resolved : Bool} {task : BridgeTask} (htask : s.tasks i = some task)
    (h : s.onSettle i resolved task = (t, outputs)) : RoomStep s (.settle i resolved) t := by
  unfold onSettle at h
  split at h
  case h_1 rest room =>
    cases h
    have hopening : s.opening (.settle i resolved) = s.peers.nextPeer rest := by rw [opening, htask]
    have hpeers := peers_openNext room s.peers rest
    cases hnext : s.peers.nextPeer rest with
    | none =>
      rw [hnext] at hpeers
      refine .other (hopening.trans hnext) rfl (fun _ _ hs => ?_) rfl (List.append_nil _).symm
      exact hpeers ▸ hs
    | some p =>
      rw [hnext] at hpeers
      exact .connects p room true (hopening.trans hnext) hpeers rfl (List.append_nil _).symm
  case h_3 =>
    split at h
    all_goals
      cases h
      exact .other (by rw [opening, htask]) rfl (fun _ _ hs => hs) rfl (List.append_nil _).symm
  case h_7 hconnecting =>
    cases h
    refine .other ?_ rfl (fun _ _ hs => hs) rfl (List.append_nil _).symm
    rw [opening, htask]
    split
    · rename_i rest room heq
      cases heq
      exact absurd rfl (hconnecting rest room)
    · rfl
  all_goals
    cases h
    exact .other (by rw [opening, htask]) rfl (fun _ _ hs => hs) rfl (List.append_nil _).symm

/-- What a step does to the room and to what is held. -/
theorem roomStep (h : s.step event = some (t, outputs)) : RoomStep s event t := by
  cases event with
  | connect room made =>
    cases h
    refine .leave rfl rfl ⟨fun hnone => ?_, nofun⟩
    have hsome : (s.link.leave.1.enter room made s.disconnect.1.stillSyncing).1.room = some room :=
      room_openSocket _ _ _
    cases hsome.symm.trans hnone
  | disconnect =>
    cases h
    exact .leave rfl rfl ⟨fun _ => rfl, fun _ => rfl⟩
  | wake hidden made =>
    cases h
    exact .other rfl rfl (fun _ _ hs => hs) (room_wake _ _ _ _) (List.append_nil _).symm
  | timer made =>
    rw [step] at h
    split at h
    · cases h
      exact .other rfl rfl (fun _ _ hs => hs) (room_openSocket _ _ _) (List.append_nil _).symm
    · cases h
  | socketOpen socket =>
    obtain ⟨room, -, heq⟩ := Option.map_eq_some_iff.mp h
    cases heq
    exact .other rfl rfl (fun _ _ hs => hs) rfl (List.append_nil _).symm
  | socketFailed socket detail =>
    obtain ⟨room, -, heq⟩ := Option.map_eq_some_iff.mp h
    cases heq
    exact .other rfl rfl (fun _ _ hs => hs) (room_failed _ _ _ _) (List.append_nil _).symm
  | message socket message =>
    obtain ⟨room, hroom, heq⟩ := Option.map_eq_some_iff.mp h
    exact roomStep_message hroom heq
  | settle i resolved =>
    obtain ⟨task, htask, heq⟩ := Option.map_eq_some_iff.mp h
    exact roomStep_settle htask heq
  | iceCandidate connection =>
    obtain ⟨peerId, -, heq⟩ := Option.map_eq_some_iff.mp h
    cases heq
    exact .other rfl rfl (fun _ _ hs => hs) rfl (List.append_nil _).symm
  | connectionState connection state =>
    obtain ⟨peerId, hpeer, heq⟩ := Option.map_eq_some_iff.mp h
    cases state with
    | failed | closed =>
      cases heq
      exact .other rfl rfl (fun _ _ hs => hs.teardown peerId) rfl (List.append_nil _).symm
    | other =>
      cases heq
      exact .other rfl rfl (fun _ _ hs => hs) rfl (List.append_nil _).symm
  | dataChannel connection isBulk =>
    obtain ⟨peerId, hpeer, heq⟩ := Option.map_eq_some_iff.mp h
    cases heq
    exact .attach connection isBulk peerId rfl hpeer rfl rfl rfl
  | channelState channel isOpen =>
    obtain ⟨peerId, -, heq⟩ := Option.map_eq_some_iff.mp h
    cases heq
    exact .other rfl rfl (fun _ _ hs => ⟨hs.outside, hs.inside⟩) rfl (List.append_nil _).symm
  | channelOpen channel =>
    obtain ⟨peerId, hpeer, heq⟩ := Option.map_eq_some_iff.mp h
    cases heq
    exact .other rfl rfl (fun _ _ hs => hs.maybeReady peerId) rfl (List.append_nil _).symm
  | channelClose channel =>
    obtain ⟨peerId, hpeer, heq⟩ := Option.map_eq_some_iff.mp h
    cases heq
    exact .other rfl rfl (fun _ _ hs => hs.teardown peerId) rfl (List.append_nil _).symm

theorem concerned_teardown (peerId : PeerId) (peers : BridgePeers) :
    ∀ o ∈ (peers.teardown peerId).2, o.concernsPeer = true := by
  unfold teardown
  split
  · nofun
  · intro o ho
    simp only [List.mem_append, Option.mem_toList, Option.map_eq_some_iff,
      List.mem_singleton] at ho
    rcases ho with ((⟨c, -, rfl⟩ | ⟨c, -, rfl⟩) | ⟨n, -, rfl⟩) | rfl
    all_goals rfl

theorem concerned_teardownAll (peerIds : List PeerId) (peers : BridgePeers) :
    ∀ o ∈ (peers.teardownAll peerIds).2, o.concernsPeer = true := by
  induction peerIds generalizing peers with
  | nil => nofun
  | cons p rest ih =>
    intro o ho
    rcases List.mem_append.mp ho with ho | ho
    · exact concerned_teardown p peers o ho
    · exact ih _ o ho

theorem concerned_maybeReady (peerId : PeerId) (peers : BridgePeers) :
    ∀ o ∈ (peers.maybeReady peerId).2, o.concernsPeer = true := by
  unfold maybeReady
  split
  · simp [BridgeOutput.concernsPeer]
  · nofun

/-- An offer or an answer is sent over the current socket, by the call that has described it. -/
theorem sends_of_signal (h : s.step event = some (t, outputs)) {socket n : Nat} {p : PeerId}
    {kind : SignalKind} (hmem : .signal socket p kind n ∈ outputs) (hkind : kind ≠ .ice) :
    s.link.socket = some socket ∧ s.link.connecting = false ∧ s.describes event = some n := by
  cases peersStep h with
  | forget q others hq hpeers hothers houtputs =>
    rw [houtputs] at hmem
    rcases List.mem_append.mp hmem with hmem | hmem
    · cases hothers _ hmem
    · cases concerned_teardown _ _ _ hmem
  | ready q hforgets hq hpeers houtputs =>
    rw [houtputs] at hmem
    cases concerned_maybeReady _ _ _ hmem
  | leave others hleaves hpeers hothers houtputs =>
    rw [houtputs] at hmem
    rcases List.mem_append.mp hmem with hmem | hmem
    · cases concerned_teardownAll _ _ _ hmem
    · cases hothers _ hmem
  | other hforgets hopens hgrows houtputs =>
    rcases houtputs _ hmem with hlink | ⟨_, _, _, _, heq, hsocket, hopen, hdescribes⟩
    · cases hlink
    · cases heq
      exact ⟨hsocket, hopen, hdescribes.resolve_left hkind⟩

/-- A call that has a description sends it when there is a socket that has opened. -/
theorem signal_of_describes {socket n : Nat} (hdescribes : s.describes event = some n)
    (hsocket : s.link.socket = some socket) (hopen : s.link.connecting = false) :
    ∃ t outputs p kind, s.step event = some (t, outputs) ∧ .signal socket p kind n ∈ outputs ∧
      (kind = .offer ∨ kind = .answer) := by
  have hsend : ∀ p kind, s.sendSignal p kind n = some [.signal socket p kind n] := by
    intro p kind
    rw [sendSignal, hsocket, hopen]
    rfl
  unfold describes at hdescribes
  split at hdescribes
  · rename_i i
    split at hdescribes
    · rename_i connection p rest room htask
      cases hdescribes
      refine ⟨_, _, p, .offer, Option.map_eq_some_iff.mpr ⟨_, htask, rfl⟩, ?_, .inl rfl⟩
      simp [hsend]
    · rename_i connection p htask
      cases hdescribes
      refine ⟨_, _, p, .answer, Option.map_eq_some_iff.mpr ⟨_, htask, rfl⟩, ?_, .inr rfl⟩
      simp [hsend]
    · cases hdescribes
  · cases hdescribes

theorem step_of_opening {p : PeerId} (h : s.opening event = some p) :
    ∃ t outputs, s.step event = some (t, outputs) := by
  unfold opening at h
  split at h
  · obtain ⟨room, hroom, -⟩ := Option.bind_eq_some_iff.mp h
    exact ⟨_, _, Option.map_eq_some_iff.mpr ⟨room, hroom, rfl⟩⟩
  · obtain ⟨room, hroom, -⟩ := Option.bind_eq_some_iff.mp h
    exact ⟨_, _, Option.map_eq_some_iff.mpr ⟨room, hroom, rfl⟩⟩
  · split at h
    · rename_i htask
      exact ⟨_, _, Option.map_eq_some_iff.mpr ⟨_, htask, rfl⟩⟩
    · cases h
  · cases h

/-! ## Runs -/

/-- After the step nothing is held outside a room, what is held inside is to peers announced for it,
and what was described for a room has been sent to that room. -/
structure Final (s : PeerBridge) (t : PeerBridge) (outputs : List BridgeOutput) : Prop where
  outside : t.link.room = none → t.peers.Empty ∧ t.peers.ready = []
  inside : ∀ p n, t.peers.connection p = some n →
    ∃ r, t.link.room = some r ∧ (r, p) ∈ t.announced
  signals : ∀ socket p kind n, .signal socket p kind n ∈ outputs → kind = .offer ∨ kind = .answer →
    s.roomOf socket = s.roomFor n

def LeavesForGood (s : PeerBridge) (event : BridgeEvent) : Prop :=
  ∀ t outputs, s.step event = some (t, outputs) → Final s t outputs

/-- A call that goes on opens connections and sends descriptions for the room that the bridge is in,
channels come while it is in a room, and none is left without a connection when it leaves. -/
structure KeepsToRoom (s : PeerBridge) (event : BridgeEvent) : Prop where
  opening : ∀ p, s.opening event = some p →
    ∃ r, s.link.room = some r ∧ (r, p) ∈ s.announced ++ s.announces event
  sending : ∀ socket n, s.describes event = some n → s.link.socket = some socket →
    s.link.connecting = false → s.roomOf socket = s.roomFor n
  attaching : ∀ n isBulk p, event = .dataChannel n isBulk → s.peerOf n = some p →
    s.link.room.isSome
  leaving : event = .disconnect → ∀ p,
    (s.peers.controlOf p).isSome ∨ (s.peers.bulkOf p).isSome → (s.peers.connection p).isSome

/-- The bridge is where it should be. -/
structure InPlace (s : PeerBridge) : Prop where
  keyed : s.peers.Keyed
  inRoom : s.peers.InRoom s.link.room s.announced

theorem inPlace_new : PeerBridge.new.InPlace :=
  ⟨⟨nofun, nofun, nofun, nofun⟩, fun _ _ => ⟨rfl, rfl, rfl⟩, nofun⟩

theorem keyed_step (hs : s.peers.Keyed) (h : s.step event = some (t, outputs)) : t.peers.Keyed := by
  cases peersStep h with
  | forget p others hp hpeers => exact hpeers ▸ hs.teardown p
  | ready p hforgets hp hpeers => exact hpeers ▸ hs.maybeReady p
  | leave others hleaves hpeers => exact hpeers ▸ hs.teardownAll _
  | other hforgets hopens hgrows => exact hgrows.keyed hs

/-- Everything has gone when all that is held has a connection. -/
theorem empty_of_leave {peers : BridgePeers} (hleaving : ∀ p,
      (peers.controlOf p).isSome ∨ (peers.bulkOf p).isSome → (peers.connection p).isSome) :
    (peers.teardownAll (peers.connections.rows.map (·.1))).1.Empty := by
  intro p
  rw [map_leave connection_teardown, map_leave controlOf_teardown, map_leave bulkOf_teardown]
  by_cases hheld : (peers.connection p).isSome
  · simp [hheld]
  · have hnone := fun h => hheld (hleaving p h)
    rw [Option.not_isSome_iff_eq_none] at hheld
    simp only [hheld, Option.isSome_none, Bool.false_eq_true, if_false, true_and]
    constructor
    · by_contra hcontrol
      exact hnone (.inl (Option.isSome_iff_ne_none.mpr hcontrol))
    · by_contra hbulk
      exact hnone (.inr (Option.isSome_iff_ne_none.mpr hbulk))

theorem inPlace_step (hs : s.InPlace) (hkeeps : s.KeepsToRoom event)
    (h : s.step event = some (t, outputs)) : t.InPlace := by
  refine ⟨keyed_step hs.keyed h, ?_⟩
  cases roomStep h with
  | leave hleaves hpeers hroom =>
    rw [hpeers]
    refine ⟨fun hnone => empty_of_leave (hkeeps.leaving (hroom.mp hnone)), fun p n hp => ?_⟩
    rw [map_leave connection_teardown] at hp
    split at hp
    · cases hp
    · rename_i hnone
      rw [hp] at hnone
      exact absurd rfl hnone
  | connects p r initiator hopening hpeers hroom hannounced =>
    obtain ⟨r', hr', hp⟩ := hkeeps.opening p hopening
    rw [hpeers, hroom, hannounced]
    exact hs.inRoom.announce.openConnection hr' hp initiator
  | attach n isBulk p hevent hpeer hpeers hroom hannounced =>
    rw [hpeers, hroom, hannounced]
    exact hs.inRoom.attach (hkeeps.attaching n isBulk p hevent hpeer) p _
  | other hopening hleaves hpeers hroom hannounced =>
    rw [hroom, hannounced]
    exact hpeers _ _ hs.inRoom.announce

theorem leavesForGood_of_keepsToRoom (hs : s.InPlace) (hkeeps : s.KeepsToRoom event) : s.LeavesForGood event := by
  intro t outputs h
  have ht := inPlace_step hs hkeeps h
  refine ⟨fun hnone => ⟨ht.inRoom.outside hnone, ?_⟩, ht.inRoom.inside, ?_⟩
  · apply List.eq_nil_iff_forall_not_mem.mpr
    intro p hp
    have hcontrol := ht.keyed.ready p hp
    rw [(ht.inRoom.outside hnone p).2.1] at hcontrol
    cases hcontrol
  · intro socket p kind n hmem hkind
    have hne : kind ≠ .ice := by
      rintro rfl
      rcases hkind with hkind | hkind <;> cases hkind
    obtain ⟨hsocket, hopen, hdescribes⟩ := sends_of_signal h hmem hne
    exact hkeeps.sending socket n hdescribes hsocket hopen

theorem keepsToRoom_of_leavesForGood (h : s.LeavesForGood event) : s.KeepsToRoom event where
  opening p hopening := by
    obtain ⟨t, outputs, hstep⟩ := step_of_opening hopening
    have hfinal := h t outputs hstep
    cases roomStep hstep with
    | leave hleaves => cases event <;> cases hleaves <;> cases hopening
    | connects q r initiator hopening' hpeers hroom hannounced =>
      cases hopening.symm.trans hopening'
      rw [← hroom, ← hannounced]
      refine hfinal.inside p s.peers.made.length ?_
      rw [hpeers, connection_openConnection, if_pos rfl]
    | attach n isBulk q hevent =>
      rw [hevent] at hopening
      cases hopening
    | other hopening' =>
      rw [hopening] at hopening'
      cases hopening'
  sending socket n hdescribes hsocket hopen := by
    obtain ⟨t, outputs, p, kind, hstep, hmem, hkind⟩ :=
      signal_of_describes hdescribes hsocket hopen
    exact (h t outputs hstep).signals socket p kind n hmem hkind
  attaching n isBulk p hevent hpeer := by
    subst hevent
    by_contra hroom
    rw [Option.not_isSome_iff_eq_none] at hroom
    have hempty := ((h _ _ (Option.map_eq_some_iff.mpr ⟨p, hpeer, rfl⟩)).outside hroom).1 p
    cases isBulk with
    | false =>
      have hcontrol := hempty.2.1
      rw [controlOf_attach, if_pos ⟨rfl, rfl⟩] at hcontrol
      cases hcontrol
    | true =>
      have hbulk := hempty.2.2
      rw [bulkOf_attach, if_pos ⟨rfl, rfl⟩] at hbulk
      cases hbulk
  leaving hevent p hheld := by
    subst hevent
    by_contra hnone
    have hempty := ((h _ _ rfl).outside rfl).1 p
    change ((s.peers.teardownAll (s.peers.connections.rows.map (·.1))).1.connection p = none ∧
      (s.peers.teardownAll (s.peers.connections.rows.map (·.1))).1.controlOf p = none ∧
      (s.peers.teardownAll (s.peers.connections.rows.map (·.1))).1.bulkOf p = none) at hempty
    rw [map_leave controlOf_teardown, map_leave bulkOf_teardown, if_neg hnone, if_neg hnone]
      at hempty
    rw [hempty.2.1, hempty.2.2] at hheld
    rcases hheld with hheld | hheld <;> cases hheld

/-- Leaving a room is final as long as nothing that was begun in one room goes on in another one. -/
theorem leavesForGood_iff_keepsToRoom (events : List BridgeEvent) :
    Meets next LeavesForGood PeerBridge.new events ↔ Meets next KeepsToRoom PeerBridge.new events := by
  refine meets_congr (fun s event hs => ?_) (fun s event t hs hkeeps hnext => ?_) inPlace_new
  · exact ⟨keepsToRoom_of_leavesForGood, leavesForGood_of_keepsToRoom hs⟩
  · obtain ⟨⟨_, outputs⟩, hstep, rfl⟩ := Option.map_eq_some_iff.mp hnext
    exact inPlace_step hs hkeeps hstep

/-- The device leaves while the loop over the peers of the room waits. -/
def leavesEarly : List BridgeEvent :=
  [.connect ⟨"wss://host/signal", ⟨"a"⟩, "t"⟩ true, .socketOpen 0,
    .message 0 (.joined ⟨"a"⟩ ⟨"me"⟩ [⟨"p"⟩, ⟨"q"⟩]), .settle 0 true, .settle 0 true, .disconnect]

theorem leavesEarly_runs : (play next PeerBridge.new leavesEarly).any fun s =>
    s.opening (.settle 0 true) = some ⟨"q"⟩ ∧ s.link.room = none := by
  decide +kernel

/-- The loop goes on and connects to the next peer, outside of the room. -/
theorem connected_outside :
    ¬ Meets next LeavesForGood PeerBridge.new (leavesEarly ++ [.settle 0 true]) := by
  intro hmeets
  obtain ⟨s, hrun, hs⟩ := (Option.any_eq_true _ _).mp leavesEarly_runs
  simp only [decide_eq_true_eq] at hs
  obtain ⟨hopening, hroom⟩ := hs
  obtain ⟨t, outputs, hstep⟩ := step_of_opening hopening
  have hlast : next s (.settle 0 true) = some t := Option.map_eq_some_iff.mpr ⟨_, hstep, rfl⟩
  have hleaves := (meets_iff (play_concat hrun hlast)).mp hmeets leavesEarly _ [] s rfl hrun
  obtain ⟨r, hr, -⟩ := (keepsToRoom_of_leavesForGood hleaves).opening _ hopening
  rw [hroom] at hr
  cases hr

end PeerBridge

end PassVault
