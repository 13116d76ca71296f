import PassVault.Core.Model
import PassVault.Lib.Table

/-!
# The rooms of the signaling server

`RoomRegistry` of `apps/signaling/src/rooms.ts`. A peer is told apart from others by the id it
chose; `send` writes to the socket that it joined on, of which only the number is kept here. What
is sent comes out of each operation, in order. Random ids and tokens are arguments.
-/

namespace PassVault

structure RoomId where
  value : String
deriving DecidableEq, Repr

structure SignalingPeer where
  peerId : PeerId
  /-- The socket that `send` writes to. -/
  socket : Nat
deriving DecidableEq, Repr

structure Room where
  id : RoomId
  inviteToken : String
  peers : Table SignalingPeer.peerId
  createdAt : Nat

/-- What the server sends, where `π` is what peers send each other. -/
inductive ServerSignalMessage (π : Type) where
  | joined (roomId : RoomId) (peerId : PeerId) (existingPeerIds : List PeerId)
  | peerJoined (peerId : PeerId)
  | peerLeft (peerId : PeerId)
  | signal (fromPeerId : PeerId) (payload : π)
  | error (message : String)
deriving DecidableEq, Repr

structure RoomRegistry where
  rooms : Table Room.id

namespace RoomRegistry

variable {π : Type}

def emptyRoomTtlMs : Nat := 20 * 60 * 1000

def maxRooms : Nat := 50000

def empty : RoomRegistry := ⟨.empty _⟩

def size (registry : RoomRegistry) : Nat := registry.rooms.rows.length

/-- Was it created long ago, and is nobody in it? -/
def abandoned (now : Nat) (room : Room) : Bool :=
  room.peers.rows.isEmpty && room.createdAt + emptyRoomTtlMs ≤ now

/-- Drop rooms that were created and never used. -/
def sweep (now : Nat) (registry : RoomRegistry) : RoomRegistry × Nat :=
  (⟨registry.rooms.filter fun room => !abandoned now room⟩,
    (registry.rooms.rows.filter (abandoned now)).length)

def roomFull : Failure := .error "too many rooms are open"

/-- What was swept stays swept when there is no place for a room. -/
def createRoom (now : Nat) (roomId : RoomId) (inviteToken : String) (registry : RoomRegistry) :
    RoomRegistry × Except Failure (RoomId × String) :=
  let (registry, _) := registry.sweep now
  if maxRooms ≤ registry.size then (registry, .error roomFull)
  else
    (⟨registry.rooms.set ⟨roomId, inviteToken, .empty _, now⟩⟩, .ok (roomId, inviteToken))

/-- The room that a peer joins, made on demand. -/
def roomToJoin (now : Nat) (roomId : RoomId) (inviteToken : String) (registry : RoomRegistry) :
    Except Failure Room :=
  match registry.rooms.find roomId with
  | some room => .ok room
  | none =>
    if maxRooms ≤ registry.size then .error roomFull
    else .ok ⟨roomId, inviteToken, .empty _, now⟩

/-- The peers that were there before, and what the others are told. -/
def join (now : Nat) (roomId : RoomId) (inviteToken : String) (peer : SignalingPeer)
    (registry : RoomRegistry) :
    Except Failure (RoomRegistry × List PeerId × List (Nat × ServerSignalMessage π)) := do
  let room ← registry.roomToJoin now roomId inviteToken
  assert (room.inviteToken = inviteToken) "invite token must match room"
  let existingPeerIds := room.peers.rows.map (·.peerId)
  let room := { room with peers := room.peers.set peer }
  let told := (room.peers.rows.filter (·.peerId ≠ peer.peerId)).map fun other =>
    (other.socket, .peerJoined peer.peerId)
  return (⟨registry.rooms.set room⟩, existingPeerIds, told)

def leave (roomId : RoomId) (peerId : PeerId) (registry : RoomRegistry) :
    RoomRegistry × List (Nat × ServerSignalMessage π) :=
  match registry.rooms.find roomId with
  | none => (registry, [])
  | some room =>
    let room := { room with peers := room.peers.delete peerId }
    let told := room.peers.rows.map fun other => (other.socket, .peerLeft peerId)
    if room.peers.rows = [] then (⟨registry.rooms.delete roomId⟩, told)
    else (⟨registry.rooms.set room⟩, told)

def relay (roomId : RoomId) (fromPeerId targetPeerId : PeerId) (payload : π)
    (registry : RoomRegistry) : Except Failure (List (Nat × ServerSignalMessage π)) := do
  match registry.rooms.find roomId with
  | none => .error (.contract "Contract violation: room must exist before signaling")
  | some room =>
    match room.peers.find targetPeerId with
    | none => .error (.contract "Contract violation: target peer must be in room")
    | some target => return [(target.socket, .signal fromPeerId payload)]

/-! ## Who is in a room -/

/-- The socket that a peer of a room joined on. -/
def member (registry : RoomRegistry) (roomId : RoomId) (peerId : PeerId) : Option Nat :=
  (registry.rooms.find roomId).bind fun room => (room.peers.find peerId).map (·.socket)

variable {registry after : RoomRegistry} {now : Nat} {roomId : RoomId} {peerId : PeerId}

theorem member_eq_some {k : Nat} : registry.member roomId peerId = some k ↔
    ∃ room, registry.rooms.find roomId = some room ∧ room.peers.find peerId = some ⟨peerId, k⟩ := by
  constructor
  · intro h
    obtain ⟨room, hroom, h⟩ := Option.bind_eq_some_iff.mp h
    obtain ⟨peer, hpeer, rfl⟩ := Option.map_eq_some_iff.mp h
    have hkey : peer.peerId = peerId := Table.key_of_find hpeer
    exact ⟨room, hroom, hkey ▸ hpeer⟩
  · rintro ⟨room, hroom, hpeer⟩
    simp [member, hroom, hpeer]

theorem member_empty : empty.member roomId peerId = none := rfl

/-- Nobody is in a room that is swept. -/
theorem member_sweep : (registry.sweep now).1.member roomId peerId = registry.member roomId peerId := by
  rw [member, member, sweep, Table.find_filter]
  cases hroom : registry.rooms.find roomId with
  | none => rfl
  | some room =>
    cases habandoned : abandoned now room with
    | false => simp [Option.filter, habandoned]
    | true =>
      have hempty : room.peers.rows = [] := by
        simp only [abandoned, Bool.and_eq_true, List.isEmpty_iff] at habandoned
        exact habandoned.1
      have hnone : room.peers.find peerId = none := by simp [Table.find, hempty]
      simp [Option.filter, habandoned, hnone]

/-- A new room has nobody in it. -/
theorem member_createRoom (now : Nat) (roomId : RoomId) (inviteToken : String)
    (registry : RoomRegistry) (id : RoomId) (peerId : PeerId) :
    (registry.createRoom now roomId inviteToken).1.member id peerId =
        registry.member id peerId ∨
      roomId = id ∧ (registry.createRoom now roomId inviteToken).1.member id peerId = none := by
  unfold createRoom
  dsimp only
  split
  · exact .inl member_sweep
  · have hsweep : (registry.sweep now).1.member id peerId = registry.member id peerId :=
      member_sweep
    rw [← hsweep, member, member, Table.find_set]
    split
    · rename_i hid
      exact .inr ⟨hid, rfl⟩
    · exact .inl rfl

/-- It takes nobody's room when its id is new. -/
theorem member_createRoom_of_fresh {inviteToken : String}
    (hfresh : registry.rooms.has roomId = false) {id : RoomId} :
    (registry.createRoom now roomId inviteToken).1.member id peerId =
      registry.member id peerId := by
  rcases member_createRoom now roomId inviteToken registry id peerId with hsame | ⟨rfl, hnone⟩
  · exact hsame
  · have hfind : registry.rooms.find roomId = none := by simpa [Table.has] using hfresh
    rw [hnone, member, hfind]
    rfl

theorem id_of_roomToJoin {inviteToken : String} {room : Room}
    (h : registry.roomToJoin now roomId inviteToken = .ok room) : room.id = roomId := by
  unfold roomToJoin at h
  split at h
  · rename_i hroom
    cases h
    exact Table.key_of_find hroom
  · split at h
    · cases h
    · cases h
      rfl

/-- Who is in the room that a peer joins, before it does. -/
theorem member_roomToJoin {inviteToken : String} {room : Room}
    (h : registry.roomToJoin now roomId inviteToken = .ok room) :
    (room.peers.find peerId).map (·.socket) = registry.member roomId peerId := by
  unfold roomToJoin at h
  split at h
  · rename_i hroom
    cases h
    rw [member, hroom]
    rfl
  · rename_i hroom
    split at h
    · cases h
    · cases h
      rw [member, hroom]
      rfl

/-- A peer that joins takes the place of the one that had its id. -/
theorem member_join {inviteToken : String} {peer : SignalingPeer} {existingPeerIds : List PeerId}
    {told : List (Nat × ServerSignalMessage π)}
    (h : registry.join now roomId inviteToken peer = .ok (after, existingPeerIds, told))
    (id : RoomId) (peerId : PeerId) : after.member id peerId =
      if roomId = id ∧ peer.peerId = peerId then some peer.socket
      else registry.member id peerId := by
  obtain ⟨room, hroom, h⟩ := bind_eq_ok.mp h
  obtain ⟨_, -, h⟩ := bind_eq_ok.mp h
  cases h
  have hid : room.id = roomId := id_of_roomToJoin hroom
  have hset := Table.find_set registry.rooms
    (⟨room.id, room.inviteToken, room.peers.set peer, room.createdAt⟩ : Room) id
  rw [member, hset]
  by_cases hsame : roomId = id
  · rw [if_pos (hid.trans hsame), Option.bind_some, Table.find_set]
    by_cases hpeer : peer.peerId = peerId
    · rw [if_pos hpeer, if_pos ⟨hsame, hpeer⟩]
      rfl
    · rw [if_neg hpeer, if_neg fun h => hpeer h.2, member_roomToJoin hroom, hsame]
  · rw [if_neg fun h => hsame (hid.symm.trans h), if_neg fun h => hsame h.1]
    rfl

/-- A peer that leaves takes the entry of its id with it, whoever joined with that id. -/
theorem member_leave (roomId : RoomId) (peerId : PeerId) (registry : RoomRegistry) (id : RoomId)
    (peerId' : PeerId) : (registry.leave (π := π) roomId peerId).1.member id peerId' =
      if roomId = id ∧ peerId = peerId' then none else registry.member id peerId' := by
  unfold leave
  cases hroom : registry.rooms.find roomId with
  | none =>
    dsimp only
    split
    · rename_i hsame
      rw [member, ← hsame.1, hroom]
      rfl
    · rfl
  | some room =>
    have hid : room.id = roomId := Table.key_of_find hroom
    have hpeers : ((room.peers.delete peerId).find peerId').map (·.socket) =
        if peerId = peerId' then none else registry.member roomId peerId' := by
      rw [Table.find_delete]
      split
      · rfl
      · rw [member, hroom]
        rfl
    dsimp only
    split
    · rename_i hempty
      rw [member, Table.find_delete]
      by_cases hsame : roomId = id
      · rw [if_pos hsame]
        have hnone : (room.peers.delete peerId).find peerId' = none := by
          simp [Table.find, hempty]
        rw [hnone, hsame] at hpeers
        by_cases hpeer : peerId = peerId'
        · rw [if_pos ⟨hsame, hpeer⟩]
          rfl
        · rw [if_neg hpeer] at hpeers
          rw [if_neg fun h => hpeer h.2]
          exact hpeers
      · rw [if_neg hsame, if_neg fun h => hsame h.1]
        rfl
    · have hset := Table.find_set registry.rooms
        (⟨room.id, room.inviteToken, room.peers.delete peerId, room.createdAt⟩ : Room) id
      rw [member, hset]
      by_cases hsame : roomId = id
      · rw [if_pos (hid.trans hsame), Option.bind_some, hpeers, hsame]
        by_cases hpeer : peerId = peerId'
        · rw [if_pos hpeer, if_pos ⟨rfl, hpeer⟩]
        · rw [if_neg hpeer, if_neg fun h => hpeer h.2]
      · rw [if_neg fun h => hsame (hid.symm.trans h), if_neg fun h => hsame h.1]
        rfl

end RoomRegistry

end PassVault
