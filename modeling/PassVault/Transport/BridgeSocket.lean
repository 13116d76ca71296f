import PassVault.Transport.PeerBridge

/-!
# The bridge and its room

In whatever order sockets fail, timers fire and rooms are entered and left: a bridge that wants to be
in a room has a socket or a timer armed, and not both.
-/

namespace PassVault

open Machine

namespace BridgeLink

/-- A bridge with a room has a socket or a retry coming, one of them; without one it has neither. -/
structure Attended (s : BridgeLink) : Prop where
  inside : s.room.isSome → (s.socket.isSome ↔ s.retryTimer = false)
  outside : s.room = none → s.socket = none ∧ s.retryTimer = false
  backoff : s.retryDelayMs = 0 ∨ firstRetryMs ≤ s.retryDelayMs ∧ s.retryDelayMs ≤ maxRetryMs

variable {s : BridgeLink}

theorem attended_new : new.Attended := ⟨nofun, fun _ => ⟨rfl, rfl⟩, .inl rfl⟩

/-- Without a socket and a timer, one of them comes. -/
theorem attended_scheduleRetry (hroom : s.room.isSome) (hsocket : s.socket = none)
    (htimer : s.retryTimer = false)
    (hbackoff : s.retryDelayMs = 0 ∨ firstRetryMs ≤ s.retryDelayMs ∧ s.retryDelayMs ≤ maxRetryMs)
    (detail : String) (stillSyncing : Bool) : (s.scheduleRetry detail stillSyncing).1.Attended := by
  obtain ⟨room, hroom⟩ := Option.isSome_iff_exists.mp hroom
  rw [scheduleRetry, hroom]
  simp only [htimer, Bool.false_eq_true, if_false]
  refine ⟨fun _ => by simp [hsocket], nofun, .inr ?_⟩
  · dsimp only
    have hfirst : firstRetryMs = 1000 := rfl
    have hmax : maxRetryMs = 30000 := rfl
    split <;> omega

theorem attended_openSocket (hroom : s.room.isSome) (hsocket : s.socket = none)
    (htimer : s.retryTimer = false)
    (hbackoff : s.retryDelayMs = 0 ∨ firstRetryMs ≤ s.retryDelayMs ∧ s.retryDelayMs ≤ maxRetryMs)
    (made stillSyncing : Bool) : (s.openSocket made stillSyncing).1.Attended := by
  obtain ⟨room, hsome⟩ := Option.isSome_iff_exists.mp hroom
  rw [openSocket, hsome]
  cases made with
  | true => exact ⟨fun _ => by simp [htimer], nofun, hbackoff⟩
  | false => exact attended_scheduleRetry hroom hsocket htimer hbackoff "" stillSyncing

theorem attended_onTimer (hs : s.Attended) (htimer : s.retryTimer = true)
    (made stillSyncing : Bool) : (s.onTimer made stillSyncing).1.Attended := by
  have hroom : s.room.isSome := by
    by_contra h
    have hout := hs.outside (Option.not_isSome_iff_eq_none.mp h)
    rw [htimer] at hout
    cases hout.2
  have hsocket : s.socket = none := by
    by_contra h
    have hfree := (hs.inside hroom).mp (Option.isSome_iff_ne_none.mpr h)
    rw [htimer] at hfree
    cases hfree
  exact attended_openSocket (s := { s with retryTimer := false }) hroom hsocket rfl hs.backoff made
    stillSyncing

theorem attended_wake (hs : s.Attended) (hidden made stillSyncing : Bool) :
    (s.wake hidden made stillSyncing).1.Attended := by
  rw [wake]
  split
  · exact hs
  · rename_i hwake
    simp only [Bool.or_eq_true, not_or, Option.isNone_iff_eq_none, Bool.not_eq_true,
      Option.isSome_eq_false_iff] at hwake
    obtain ⟨⟨hroom, hsocket⟩, -⟩ := hwake
    exact attended_openSocket (s := { s with retryTimer := false, retryDelayMs := 0 })
      (Option.isSome_iff_ne_none.mpr hroom) hsocket rfl (.inl rfl) made stillSyncing

theorem attended_onOpen (hs : s.Attended) (socket : Nat) (room : BridgeRoom) :
    (s.onOpen socket room).1.Attended := ⟨hs.inside, hs.outside, .inl rfl⟩

theorem attended_failed (hs : s.Attended) (socket : Nat) (detail : String) (stillSyncing : Bool) :
    (s.failed socket detail stillSyncing).1.Attended := by
  rw [failed]
  split
  · exact hs
  · rename_i hcurrent
    have hsocket : s.socket = some socket := by
      by_contra h
      exact hcurrent (by simp [h])
    have hroom : s.room.isSome := by
      by_contra h
      have hout := hs.outside (Option.not_isSome_iff_eq_none.mp h)
      rw [hsocket] at hout
      cases hout.1
    have htimer : s.retryTimer = false := (hs.inside hroom).mp (by rw [hsocket]; rfl)
    exact attended_scheduleRetry (s := { s with socket := none }) hroom rfl htimer hs.backoff detail
      stillSyncing

theorem attended_leave (hs : s.Attended) : s.leave.1.Attended :=
  ⟨nofun, fun _ => ⟨rfl, rfl⟩, hs.backoff⟩

theorem attended_enter (hsocket : s.socket = none) (htimer : s.retryTimer = false)
    (room : BridgeRoom) (made stillSyncing : Bool) :
    (s.enter room made stillSyncing).1.Attended :=
  attended_openSocket (s := { s with
    room := some room, retryDelayMs := 0, outageReported := false
    closingDeliberately := false }) rfl hsocket htimer (.inl rfl) made stillSyncing

end BridgeLink

namespace PeerBridge

open BridgeLink

variable {s t : PeerBridge}

theorem link_applySignal (peerId : PeerId) (kind : SignalKind) :
    (s.applySignal peerId kind).link = s.link := by
  unfold applySignal
  split <;> rfl

theorem link_handleSignal (room : BridgeRoom) (message : ServerSignalMessage SignalKind) :
    (s.handleSignal room message).1.link = s.link := by
  cases message with
  | joined => rfl
  | peerJoined => rfl
  | peerLeft =>
    rw [handleSignal]
    split <;> rfl
  | signal fromPeerId kind =>
    rw [handleSignal]
    exact link_applySignal fromPeerId kind
  | error => rfl

theorem link_onSettle (i : Nat) (resolved : Bool) (task : BridgeTask) :
    (s.onSettle i resolved task).1.link = s.link := by
  unfold onSettle
  split
  case h_3 => split <;> rfl
  all_goals rfl

theorem link_onConnectionState (peerId : PeerId) (state : ConnectionState) :
    (s.onConnectionState peerId state).1.link = s.link := by
  cases state <;> rfl

/-- Only what happens to sockets, rooms and timers matters to them. -/
theorem attended_next (hs : s.link.Attended) {event : BridgeEvent} (h : s.next event = some t) :
    t.link.Attended := by
  obtain ⟨⟨_, outputs⟩, hstep, rfl⟩ := Option.map_eq_some_iff.mp h
  cases event with
  | connect room made =>
    cases hstep
    exact attended_enter (s := s.link.leave.1) rfl rfl room made _
  | disconnect =>
    cases hstep
    exact attended_leave hs
  | wake hidden made =>
    cases hstep
    exact attended_wake hs hidden made _
  | timer made =>
    rw [step] at hstep
    split at hstep
    · rename_i htimer
      cases hstep
      exact attended_onTimer hs htimer made _
    · cases hstep
  | socketOpen socket =>
    obtain ⟨room, -, heq⟩ := Option.map_eq_some_iff.mp hstep
    cases heq
    exact attended_onOpen hs socket room
  | socketFailed socket detail =>
    obtain ⟨room, -, heq⟩ := Option.map_eq_some_iff.mp hstep
    cases heq
    exact attended_failed hs socket detail _
  | message socket message =>
    obtain ⟨room, -, heq⟩ := Option.map_eq_some_iff.mp hstep
    have hlink := link_handleSignal (s := s) room message
    rw [heq] at hlink
    exact hlink ▸ hs
  | settle i resolved =>
    obtain ⟨task, -, heq⟩ := Option.map_eq_some_iff.mp hstep
    have hlink := link_onSettle (s := s) i resolved task
    rw [heq] at hlink
    exact hlink ▸ hs
  | connectionState connection state =>
    obtain ⟨peerId, -, heq⟩ := Option.map_eq_some_iff.mp hstep
    have hlink := link_onConnectionState (s := s) peerId state
    rw [heq] at hlink
    exact hlink ▸ hs
  | iceCandidate connection =>
    obtain ⟨peerId, -, heq⟩ := Option.map_eq_some_iff.mp hstep
    cases heq
    exact hs
  | dataChannel connection isBulk =>
    obtain ⟨peerId, -, heq⟩ := Option.map_eq_some_iff.mp hstep
    cases heq
    exact hs
  | channelState channel isOpen =>
    obtain ⟨peerId, -, heq⟩ := Option.map_eq_some_iff.mp hstep
    cases heq
    exact hs
  | channelOpen channel =>
    obtain ⟨peerId, -, heq⟩ := Option.map_eq_some_iff.mp hstep
    cases heq
    exact hs
  | channelClose channel =>
    obtain ⟨peerId, -, heq⟩ := Option.map_eq_some_iff.mp hstep
    cases heq
    exact hs

/-- The bridge is never stranded and never doubled. -/
theorem attended_always {events : List BridgeEvent} (h : play next PeerBridge.new events = some s) :
    s.link.Attended := by
  refine play_keeps (P := fun s => s.link.Attended) (fun _ _ s t hs hnext => ?_) h attended_new
  exact attended_next hs hnext

/-- A server that is gone for a while, and a device that wakes up in between. -/
def outage : List BridgeEvent :=
  let room : BridgeRoom := ⟨"wss://host/signal", ⟨"r"⟩, "t"⟩
  [.connect room true, .socketOpen 0, .socketFailed 0 "", .socketFailed 0 "restart", .timer false,
    .timer true, .socketFailed 1 "", .wake false true, .socketFailed 1 "late", .connect room false,
    .disconnect, .socketFailed 2 ""]

theorem outage_runs : (play next PeerBridge.new outage).isSome := by decide +kernel

theorem attended_outage : ∃ s, play next PeerBridge.new outage = some s ∧ s.link.Attended :=
  ⟨_, (Option.some_get outage_runs).symm, attended_always (Option.some_get outage_runs).symm⟩

end PeerBridge

end PassVault
