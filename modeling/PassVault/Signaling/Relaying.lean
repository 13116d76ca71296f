import PassVault.Signaling.Membership

/-!
# Who the server passes messages on to

What the server sends to another socket than the one it has heard from stays in the room: it goes
to the socket that joined last under an id there. Whoever is in a room has shown its invite token.
-/

namespace PassVault

variable {π : Type}

namespace RoomRegistry

variable {registry after : RoomRegistry} {P Q : RoomId → String → SignalingPeer → Prop}

/-- What holds of every peer, the room that it is in and the token of that room. -/
def Peopled (P : RoomId → String → SignalingPeer → Prop) (registry : RoomRegistry) : Prop :=
  ∀ room ∈ registry.rooms.rows, ∀ peer ∈ room.peers.rows, P room.id room.inviteToken peer

theorem Peopled.sweep (h : registry.Peopled P) (now : Nat) : (registry.sweep now).1.Peopled P :=
  fun room hroom => h room (List.mem_of_mem_filter hroom)

theorem Peopled.createRoom (h : registry.Peopled P) (now : Nat) (roomId : RoomId)
    (inviteToken : String) : (registry.createRoom now roomId inviteToken).1.Peopled P := by
  have hsweep := h.sweep now
  unfold RoomRegistry.createRoom
  dsimp only
  split
  · exact hsweep
  · intro room hroom peer hpeer
    rcases Table.mem_set.mp hroom with rfl | ⟨hroom, -⟩
    · cases hpeer
    · exact hsweep room hroom peer hpeer

theorem Peopled.leave (h : registry.Peopled P) (roomId : RoomId) (peerId : PeerId) :
    (registry.leave (π := π) roomId peerId).1.Peopled P := by
  unfold RoomRegistry.leave
  split
  · exact h
  · rename_i room hfind
    have hpeers : ∀ peer ∈ (room.peers.delete peerId).rows, P room.id room.inviteToken peer :=
      fun peer hpeer => h room (Table.mem_of_find hfind) peer (List.mem_of_mem_filter hpeer)
    dsimp only
    split
    · exact fun room' hroom' => h room' (List.mem_of_mem_filter hroom')
    · intro room' hroom' peer hpeer
      rcases Table.mem_set.mp hroom' with rfl | ⟨hroom', -⟩
      · exact hpeers peer hpeer
      · exact h room' hroom' peer hpeer

/-- The room that a peer joins, with the peers that are in it by then. -/
theorem Peopled.roomToJoin (h : registry.Peopled P) {now : Nat} {roomId : RoomId}
    {inviteToken : String} {room : Room}
    (hroom : registry.roomToJoin now roomId inviteToken = .ok room) :
    room.id = roomId ∧ ∀ peer ∈ room.peers.rows, P room.id room.inviteToken peer := by
  refine ⟨id_of_roomToJoin hroom, fun peer hpeer => ?_⟩
  unfold RoomRegistry.roomToJoin at hroom
  split at hroom
  · rename_i hfind
    cases hroom
    exact h room (Table.mem_of_find hfind) peer hpeer
  · split at hroom
    · cases hroom
    · cases hroom
      cases hpeer

/-- A join that is accepted shows the token of the room, and the others in it are told. -/
theorem Peopled.join (h : registry.Peopled P) {now : Nat} {roomId : RoomId} {inviteToken : String}
    {peer : SignalingPeer} {existingPeerIds : List PeerId}
    {told : List (Nat × ServerSignalMessage π)}
    (hjoin : registry.join now roomId inviteToken peer = .ok (after, existingPeerIds, told))
    (hothers : ∀ id token other, P id token other → ¬ (id = roomId ∧ other.peerId = peer.peerId) →
      Q id token other)
    (hnew : Q roomId inviteToken peer) :
    after.Peopled Q ∧
      (∀ id ∈ existingPeerIds, ∃ other : SignalingPeer, other.peerId = id ∧
        P roomId inviteToken other) ∧
      ∀ x ∈ told, ∃ other : SignalingPeer, x = (other.socket, .peerJoined peer.peerId) ∧
        other.peerId ≠ peer.peerId ∧ P roomId inviteToken other := by
  obtain ⟨room, hroom, hjoin⟩ := bind_eq_ok.mp hjoin
  obtain ⟨_, htoken, hjoin⟩ := bind_eq_ok.mp hjoin
  cases hjoin
  obtain ⟨rfl, hpeers⟩ := h.roomToJoin hroom
  obtain rfl : room.inviteToken = inviteToken := by simpa using assert_eq_ok.mp htoken
  refine ⟨fun room' hroom' other hother => ?_, fun id hid => ?_, fun x hx => ?_⟩
  · rcases Table.mem_set.mp hroom' with rfl | ⟨hroom', hkey⟩
    · rcases Table.mem_set.mp hother with rfl | ⟨hother, hid⟩
      · exact hnew
      · exact hothers _ _ other (hpeers other hother) fun hsame => hid hsame.2
    · exact hothers _ _ other (h room' hroom' other hother) fun hsame => hkey hsame.1
  · obtain ⟨other, hother, rfl⟩ := List.mem_map.mp hid
    exact ⟨other, rfl, hpeers other hother⟩
  · obtain ⟨other, hother, rfl⟩ := List.mem_map.mp hx
    obtain ⟨hmem, hid⟩ := List.mem_filter.mp hother
    have hid : other.peerId ≠ peer.peerId := by simpa using hid
    rcases Table.mem_set.mp hmem with rfl | ⟨hmem, -⟩
    · exact (hid rfl).elim
    · exact ⟨other, rfl, hid, hpeers other hmem⟩

/-- Those that stay are told. -/
theorem Peopled.told_leave (h : registry.Peopled P) {roomId : RoomId} {peerId : PeerId}
    {x : Nat × ServerSignalMessage π} (hx : x ∈ (registry.leave roomId peerId).2) :
    ∃ (other : SignalingPeer) (token : String), x = (other.socket, .peerLeft peerId) ∧
      other.peerId ≠ peerId ∧ P roomId token other := by
  unfold RoomRegistry.leave at hx
  split at hx
  · cases hx
  · rename_i room hfind
    have hid : room.id = roomId := Table.key_of_find hfind
    have hmem : x ∈ (room.peers.delete peerId).rows.map fun other =>
        (other.socket, ServerSignalMessage.peerLeft peerId) := by
      dsimp only at hx
      split at hx
      · exact hx
      · exact hx
    obtain ⟨other, hother, rfl⟩ := List.mem_map.mp hmem
    obtain ⟨hother, hne⟩ := List.mem_filter.mp hother
    refine ⟨other, room.inviteToken, rfl, by simpa using hne, ?_⟩
    exact hid ▸ h room (Table.mem_of_find hfind) other hother

/-- A relayed message goes to one peer of the room. -/
theorem Peopled.relay (h : registry.Peopled P) {roomId : RoomId} {fromPeerId targetPeerId : PeerId}
    {payload : π} {told : List (Nat × ServerSignalMessage π)}
    (hrelay : registry.relay roomId fromPeerId targetPeerId payload = .ok told) :
    ∃ (other : SignalingPeer) (token : String),
      told = [(other.socket, .signal fromPeerId payload)] ∧ other.peerId = targetPeerId ∧
      P roomId token other ∧ ∀ peer, registry.member roomId peer.peerId = some peer.socket →
        P roomId token peer := by
  unfold RoomRegistry.relay at hrelay
  split at hrelay
  · cases hrelay
  · rename_i room hfind
    have hid : room.id = roomId := Table.key_of_find hfind
    split at hrelay
    · cases hrelay
    · rename_i target htarget
      cases hrelay
      refine ⟨target, room.inviteToken, rfl, Table.key_of_find htarget,
        hid ▸ h room (Table.mem_of_find hfind) target (Table.mem_of_find htarget),
        fun peer hpeer => ?_⟩
      obtain ⟨room', hfind', hpeer⟩ := member_eq_some.mp hpeer
      obtain rfl := Option.some.inj (hfind.symm.trans hfind')
      exact hid ▸ h room (Table.mem_of_find hfind) peer (Table.mem_of_find hpeer)

end RoomRegistry

namespace SignalingServer

/-- A join that succeeded, and the invite token that it showed. -/
structure Admission extends Join where
  inviteToken : String
deriving DecidableEq, Repr

def admissionOf (s : SignalingServer) : SignalingEvent π → List Admission
  | .message k now (some (.join roomId inviteToken peerId)) =>
    (s.joinOf (π := π) (.message k now (some (.join roomId inviteToken peerId)))).map
      (⟨·, inviteToken⟩)
  | _ => []

/-- The joins of a run that succeeded, with their tokens. -/
def admissions (events : List (SignalingEvent π)) : List Admission :=
  (events.foldl (fun run event => ((run.1.step event).1, run.2 ++ run.1.admissionOf event))
    (start, [])).2

theorem admissions_concat (events : List (SignalingEvent π)) (event : SignalingEvent π) :
    admissions (events ++ [event]) = admissions events ++ (after events).admissionOf event := by
  have hafter : ∀ events : List (SignalingEvent π),
      (events.foldl (fun run event => ((run.1.step event).1, run.2 ++ run.1.admissionOf event))
        (start, ([] : List Admission))).1 = after events := by
    intro events
    induction events using List.reverseRecOn with
    | nil => rfl
    | append_singleton events event ih => rw [List.foldl_concat, ih, after_concat]
  rw [admissions, List.foldl_concat, hafter]
  rfl

/-- The socket was the last to join the room under the id, and showed the token. -/
def Holds (admitted : List Admission) (roomId : RoomId) (inviteToken : String)
    (peer : SignalingPeer) : Prop :=
  ∃ before later, admitted = before ++ ⟨⟨peer.socket, roomId, peer.peerId⟩, inviteToken⟩ :: later ∧
    ∀ admission ∈ later, ¬ (admission.roomId = roomId ∧ admission.peerId = peer.peerId)

theorem Holds.concat {admitted : List Admission} {admission : Admission} {roomId : RoomId}
    {inviteToken : String} {peer : SignalingPeer} (h : Holds admitted roomId inviteToken peer)
    (hother : ¬ (roomId = admission.roomId ∧ peer.peerId = admission.peerId)) :
    Holds (admitted ++ [admission]) roomId inviteToken peer := by
  obtain ⟨before, later, rfl, hlater⟩ := h
  refine ⟨before, later ++ [admission], by simp, fun other hmem => ?_⟩
  rcases List.mem_append.mp hmem with hmem | hmem
  · exact hlater other hmem
  · rw [List.mem_singleton.mp hmem]
    exact fun hsame => hother ⟨hsame.1.symm, hsame.2.symm⟩

/-- Every peer in a room holds its id there, and has shown the token of the room. -/
theorem peopled (events : List (SignalingEvent π)) :
    (after events).registry.Peopled (Holds (admissions events)) := by
  induction events using List.reverseRecOn with
  | nil => simp [RoomRegistry.Peopled, after, history, start, RoomRegistry.empty, Table.empty]
  | append_singleton events event ih =>
    rw [after_concat, admissions_concat]
    generalize after events = s at ih ⊢
    generalize admissions events = admitted at ih ⊢
    cases event with
    | connect =>
      simp only [admissionOf, List.append_nil]
      exact ih
    | createRoom now roomId inviteToken =>
      simp only [admissionOf, List.append_nil]
      exact ih.createRoom now roomId inviteToken
    | close k =>
      simp only [admissionOf, List.append_nil]
      unfold step
      dsimp only
      split
      · unfold onClose
        dsimp only
        split
        · exact ih
        · exact ih.leave (π := π) _ _
      · exact ih
    | message k now parsed =>
      unfold step
      dsimp only
      split
      · rename_i hopen
        cases parsed with
        | none =>
          simp only [admissionOf, List.append_nil]
          exact ih
        | some message =>
          cases message with
          | signal =>
            simp only [admissionOf, List.append_nil]
            exact ih
          | join roomId inviteToken peerId =>
            unfold onMessage onJoin admissionOf joinOf
            dsimp only
            rw [if_pos hopen]
            cases hjoin : s.registry.join (π := π) now roomId inviteToken ⟨peerId, k⟩ with
            | error =>
              simp only [List.map_nil, List.append_nil]
              exact ih
            | ok result =>
              obtain ⟨registry, existingPeerIds, told⟩ := result
              refine (ih.join hjoin (fun id token other hheld hother => hheld.concat hother) ?_).1
              exact ⟨admitted, [], rfl, by simp⟩
      · rename_i hclosed
        have hnone : s.admissionOf (.message k now parsed) = [] := by
          unfold admissionOf
          split
          · rename_i heq
            cases heq
            rw [joinOf, if_neg hclosed, List.map_nil]
          · rfl
        rw [hnone, List.append_nil]
        exact ih

/-! ## What is sent -/

/-- Why a socket is sent a message. -/
inductive Meant (s : SignalingServer) (joins : List Join) (admitted : List Admission) :
    SignalingEvent π → Nat → ServerSignalMessage π → Prop where
  | error {k now : Nat} {parsed : Option (ClientSignalMessage π)} (message : String) :
    Meant s joins admitted (.message k now parsed) k (.error message)
  /-- A socket learns who is in the room with the token that it shows. -/
  | joined {k now : Nat} {roomId : RoomId} {inviteToken : String} {peerId : PeerId}
      {existingPeerIds : List PeerId}
      (h : ∀ id ∈ existingPeerIds, ∃ other : SignalingPeer, other.peerId = id ∧
        Holds admitted roomId inviteToken other) :
    Meant s joins admitted (.message k now (some (.join roomId inviteToken peerId))) k
      (.joined roomId peerId existingPeerIds)
  | peerJoined {k now : Nat} {roomId : RoomId} {inviteToken : String} {peerId : PeerId}
      {other : SignalingPeer} (hother : other.peerId ≠ peerId)
      (h : Holds admitted roomId inviteToken other) :
    Meant s joins admitted (.message k now (some (.join roomId inviteToken peerId))) other.socket
      (.peerJoined peerId)
  | peerLeft {k : Nat} {roomId : RoomId} {inviteToken : String} {peerId : PeerId}
      {other : SignalingPeer} (hleft : LastJoin joins k roomId peerId)
      (hother : other.peerId ≠ peerId) (h : Holds admitted roomId inviteToken other) :
    Meant s joins admitted (.close k) other.socket (.peerLeft peerId)
  /-- The sender is named as in its last join. If it is still in the room under that name it has
  shown the same token as the peer that it calls. -/
  | signal {k now : Nat} {roomId : RoomId} {inviteToken : String} {peerId : PeerId} {payload : π}
      {other : SignalingPeer} (hsender : LastJoin joins k roomId peerId)
      (h : Holds admitted roomId inviteToken other)
      (hshared : s.registry.member roomId peerId = some k →
        Holds admitted roomId inviteToken ⟨peerId, k⟩) :
    Meant s joins admitted (.message k now (some (.signal other.peerId payload))) other.socket
      (.signal peerId payload)

/-- The phone calls the laptop. -/
example : ((after meeting).step (.message 1 0 (some (.signal ⟨"laptop"⟩ ())))).2 =
    [(0, .signal ⟨"phone"⟩ ())] := by decide +kernel

end SignalingServer

end PassVault
