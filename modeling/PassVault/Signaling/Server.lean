import Mathlib.Logic.Function.Basic
import PassVault.Signaling.Rooms

/-!
# The signaling server

The connection handler of `startSignalingServer` (`apps/signaling/src/index.ts`). Sockets are
numbered in the order they connect; a socket that has closed emits nothing more. A message is what
`parseClientMessage` makes of it, `none` when it is not one.
-/

namespace PassVault

inductive ClientSignalMessage (π : Type) where
  | join (roomId : RoomId) (inviteToken : String) (peerId : PeerId)
  | signal (targetPeerId : PeerId) (payload : π)
deriving DecidableEq, Repr

structure SignalingServer where
  registry : RoomRegistry
  /-- How many sockets have connected. -/
  connected : Nat
  closed : Nat → Bool
  /-- The last room that each socket joined, and its id there. -/
  joined : Nat → Option (RoomId × PeerId)

inductive SignalingEvent (π : Type) where
  | connect
  | message (socket : Nat) (now : Nat) (parsed : Option (ClientSignalMessage π))
  | close (socket : Nat)
  /-- `POST /rooms`, within the rate limit. -/
  | createRoom (now : Nat) (roomId : RoomId) (inviteToken : String)
deriving DecidableEq, Repr

/-- A socket joined a room under an id. -/
structure Join where
  socket : Nat
  roomId : RoomId
  peerId : PeerId
deriving DecidableEq, Repr

namespace SignalingServer

variable {π : Type}

def start : SignalingServer := ⟨.empty, 0, fun _ => false, fun _ => none⟩

def isOpen (k : Nat) (s : SignalingServer) : Bool := k < s.connected && !s.closed k

def onJoin (k now : Nat) (roomId : RoomId) (inviteToken : String) (peerId : PeerId)
    (s : SignalingServer) : SignalingServer × List (Nat × ServerSignalMessage π) :=
  match s.registry.join now roomId inviteToken ⟨peerId, k⟩ with
  | .error error => (s, [(k, .error error.message)])
  | .ok (registry, existingPeerIds, told) =>
    ({ s with registry, joined := Function.update s.joined k (some (roomId, peerId)) },
      told ++ [(k, .joined roomId peerId existingPeerIds)])

def onSignal (k : Nat) (targetPeerId : PeerId) (payload : π) (s : SignalingServer) :
    List (Nat × ServerSignalMessage π) :=
  match s.joined k with
  | none => [(k, .error "join a room before signaling")]
  | some (roomId, peerId) =>
    match s.registry.relay roomId peerId targetPeerId payload with
    | .error error => [(k, .error error.message)]
    | .ok told => told

def onMessage (k now : Nat) (s : SignalingServer) :
    Option (ClientSignalMessage π) → SignalingServer × List (Nat × ServerSignalMessage π)
  | none => (s, [(k, .error "invalid signaling message")])
  | some (.join roomId inviteToken peerId) => s.onJoin k now roomId inviteToken peerId
  | some (.signal targetPeerId payload) => (s, s.onSignal k targetPeerId payload)

def onClose (k : Nat) (s : SignalingServer) :
    SignalingServer × List (Nat × ServerSignalMessage π) :=
  let s := { s with closed := Function.update s.closed k true }
  match s.joined k with
  | none => (s, [])
  | some (roomId, peerId) =>
    let (registry, told) := s.registry.leave roomId peerId
    ({ s with registry }, told)

def step (s : SignalingServer) :
    SignalingEvent π → SignalingServer × List (Nat × ServerSignalMessage π)
  | .connect => ({ s with connected := s.connected + 1 }, [])
  | .message k now parsed => if s.isOpen k then s.onMessage k now parsed else (s, [])
  | .close k => if s.isOpen k then s.onClose k else (s, [])
  | .createRoom now roomId inviteToken =>
    ({ s with registry := (s.registry.createRoom now roomId inviteToken).1 }, [])

/-- The join that an event is, when it succeeds. -/
def joinOf (s : SignalingServer) : SignalingEvent π → List Join
  | .message k now (some (.join roomId inviteToken peerId)) =>
    if s.isOpen k then
      match s.registry.join (π := π) now roomId inviteToken ⟨peerId, k⟩ with
      | .error _ => []
      | .ok _ => [⟨k, roomId, peerId⟩]
    else []
  | _ => []

/-- The server after some events, and the joins that succeeded. -/
def history (events : List (SignalingEvent π)) : SignalingServer × List Join :=
  events.foldl (fun (s, joins) event => ((s.step event).1, joins ++ s.joinOf event)) (start, [])

def after (events : List (SignalingEvent π)) : SignalingServer := (history events).1

def joins (events : List (SignalingEvent π)) : List Join := (history events).2

theorem joins_nil : joins ([] : List (SignalingEvent π)) = [] := rfl

theorem after_concat (events : List (SignalingEvent π)) (event : SignalingEvent π) :
    after (events ++ [event]) = ((after events).step event).1 := by
  simp [after, history]

theorem joins_concat (events : List (SignalingEvent π)) (event : SignalingEvent π) :
    joins (events ++ [event]) = joins events ++ (after events).joinOf event := by
  simp [joins, after, history]

/-! ## What one event can do -/

/-- What an event does to the rooms and to what the sockets remember. -/
inductive Moves (s : SignalingServer) : SignalingEvent π → SignalingServer → List Join → Prop where
  | connect : Moves s .connect { s with connected := s.connected + 1 } []
  /-- Nothing changes. -/
  | idle (event : SignalingEvent π) (h : ∀ k, event = .close k → s.isOpen k = false) :
    Moves s event s []
  | join {k now : Nat} {roomId : RoomId} {inviteToken : String} {peerId : PeerId}
      {registry : RoomRegistry} (hopen : s.isOpen k = true)
      (h : ∀ id peerId', registry.member id peerId' =
        if roomId = id ∧ peerId = peerId' then some k else s.registry.member id peerId') :
    Moves s (.message k now (some (.join roomId inviteToken peerId)))
      { s with registry, joined := Function.update s.joined k (some (roomId, peerId)) }
      [⟨k, roomId, peerId⟩]
  | leave {k : Nat} {registry : RoomRegistry} (hopen : s.isOpen k = true)
      (h : ∀ id peerId, registry.member id peerId =
        if s.joined k = some (id, peerId) then none else s.registry.member id peerId) :
    Moves s (.close k) { s with registry, closed := Function.update s.closed k true } []
  | createRoom {now : Nat} {roomId : RoomId} {inviteToken : String} :
    Moves s (.createRoom now roomId inviteToken)
      { s with registry := (s.registry.createRoom now roomId inviteToken).1 } []

theorem moves_step (s : SignalingServer) (event : SignalingEvent π) :
    Moves s event (s.step event).1 (s.joinOf event) := by
  cases event with
  | connect => exact .connect
  | createRoom => exact .createRoom
  | close k =>
    unfold step joinOf
    dsimp only
    split
    · rename_i hopen
      unfold onClose
      dsimp only
      split
      · rename_i hjoined
        refine .leave hopen fun id peerId => ?_
        simp [hjoined]
      · rename_i roomId peerId hjoined
        refine .leave hopen fun id peerId' => ?_
        rw [RoomRegistry.member_leave, hjoined]
        simp
    · rename_i hclosed
      refine .idle _ fun k' h => ?_
      cases h
      simpa using hclosed
  | message k now parsed =>
    have hidle : Moves s (.message k now parsed) s [] := .idle _ fun _ h => by cases h
    unfold step
    dsimp only
    split
    · rename_i hopen
      cases parsed with
      | none => exact hidle
      | some message =>
        cases message with
        | signal => exact hidle
        | join roomId inviteToken peerId =>
          unfold joinOf onMessage onJoin
          dsimp only
          rw [if_pos hopen]
          cases hjoin : s.registry.join (π := π) now roomId inviteToken ⟨peerId, k⟩ with
          | error => exact hidle
          | ok result =>
            obtain ⟨registry, existingPeerIds, told⟩ := result
            exact .join hopen fun id peerId' => RoomRegistry.member_join hjoin id peerId'
    · rename_i hclosed
      have hnone : s.joinOf (.message k now parsed) = [] := by
        unfold joinOf
        split
        · rename_i h
          cases h
          rw [if_neg hclosed]
        · rfl
      rw [hnone]
      exact hidle

end SignalingServer

end PassVault
