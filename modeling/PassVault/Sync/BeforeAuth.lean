import PassVault.Lib.Runs
import PassVault.Sync.Callbacks
import PassVault.Sync.SessionEnd

/-!
# Before the peer is accepted

Until `verifyPeer` has accepted the peer, a session only says who it is, and its store plays no
part: two devices with different stores make the same run.
-/

namespace PassVault

namespace Session

/-- The session does not know who the other side is, and takes nothing from it. -/
structure Unknown (s : Session) : Prop where
  remoteDeviceId : s.remoteDeviceId = none
  assemblers : s.assemblers = []
  inboundWork : s.inboundWork = []

theorem unknown_new : Session.new.Unknown := ⟨rfl, rfl, rfl⟩

theorem ProgramStep.unknown {s t : Session} (h : s.ProgramStep t) (hs : s.Unknown) : t.Unknown :=
  ⟨h.remoteDeviceId.trans hs.remoteDeviceId, h.assemblers.trans hs.assemblers,
    h.inboundWork.trans hs.inboundWork⟩

theorem SameInbound.unknown {s t : Session} (h : s.SameInbound t) (hs : s.Unknown) : t.Unknown :=
  ⟨h.2.2.2.trans hs.remoteDeviceId, h.1.trans hs.assemblers, h.2.2.1.trans hs.inboundWork⟩

/-- A control payload is queued or fails the inbox, and is not answered. -/
theorem Unknown.accept {s : Session} (hs : s.Unknown) (payload : Except Failure Message) :
    (s.accept payload).1.Unknown ∧ (s.accept payload).2 = [] := by
  unfold Session.accept
  split
  · exact ⟨⟨hs.remoteDeviceId, hs.assemblers, hs.inboundWork⟩, rfl⟩
  · exact ⟨⟨hs.remoteDeviceId, hs.assemblers, hs.inboundWork⟩, rfl⟩
  · rw [hs.remoteDeviceId]
    exact ⟨⟨hs.remoteDeviceId, hs.assemblers, hs.inboundWork⟩, rfl⟩
  · unfold onAck
    split
    · exact ⟨⟨hs.remoteDeviceId, hs.assemblers, hs.inboundWork⟩, rfl⟩
    · exact ⟨hs, rfl⟩
  · exact ⟨(sameInbound_notifyProgress _).unknown
      ⟨hs.remoteDeviceId, hs.assemblers, hs.inboundWork⟩, rfl⟩
  · unfold onCancel
    rw [hs.assemblers]
    exact ⟨hs, rfl⟩
  · exact ⟨(sameInbound_enqueue _ s).unknown hs, rfl⟩

/-- A bulk frame is put aside at most. -/
theorem Unknown.acceptBulk {s : Session} (hs : s.Unknown) (frame : Bytes) :
    (s.acceptBulk frame).1.Unknown ∧ (s.acceptBulk frame).2 = [] := by
  unfold Session.acceptBulk
  split
  · unfold onFrame
    rw [hs.assemblers]
    dsimp only [List.find?_nil]
    split
    · exact ⟨⟨hs.remoteDeviceId, rfl, hs.inboundWork⟩, rfl⟩
    · exact ⟨hs, rfl⟩
  · exact ⟨hs, rfl⟩

end Session

open Async

/-- A message of the handshake is sent, or something arrives. -/
def HandshakeEvent : PeerEvent → Prop
  | .output (.control message) =>
    message.type = .hello ∨ message.type = .auth ∨ message.type = .error
  | .output _ => False
  | .engine _ => False
  | .delivered _ | .arrived _ | .closed => True

/-- The same session over two stores. -/
structure Blind (store other : Store) (s s' : Peer) : Prop where
  session : s'.session = s.session
  unknown : s.session.Unknown
  store : s.store = store
  other : s'.store = other

/-- `verifyPeer` accepts what a device with this id says. -/
def Accepts (auth : PeerAuthenticator) (deviceId : DeviceId) : Prop :=
  ∃ publicKey signature claimedName name,
    auth.verifyPeer deviceId publicKey auth.nonce signature claimedName = .ok name

/-- The peer has been accepted. -/
def Known (s : Peer) : Prop := s.session.remoteDeviceId ≠ none

theorem RunAccess.known {s t : Peer} {events : List PeerEvent} (h : RunAccess s events t)
    (hs : Known s) : Known t := by
  cases h with
  | judging h =>
    cases h with
    | program h => exact fun hnone => hs (h.step.remoteDeviceId ▸ hnone)
    | proves => exact hs
    | authenticated deviceId => simp [Known]
  | ended => exact hs

namespace SyncSession

variable {store other : Store} {α : Type} {Q : α → Prop}

theorem twin_onSession {f : Session → Session × List Output} {Q : Unit → Prop}
    (hf : ∀ s : Session, s.ProgramStep (f s).1)
    (houtput : ∀ s, ∀ output ∈ (f s).2, HandshakeEvent (.output output)) (hpost : Q ()) :
    Twin (Blind store other) Known HandshakeEvent Q (onSession 0 f) := by
  intro s s' hs
  refine ⟨fun e he => ?_, .inr ⟨?_, ⟨?_, (hf _).unknown hs.unknown, hs.store, hs.other⟩, rfl, hpost⟩⟩
  · obtain ⟨output, hmem, rfl⟩ := List.mem_map.mp he
    exact houtput _ output hmem
  · simp only [Peer.session_eq, hs.session]
  · simp only [Peer.session_eq, Peer.setSession_eq, hs.session]

theorem twin_update {f : Session → Session} {Q : Unit → Prop}
    (hf : ∀ s : Session, s.ProgramStep (f s)) (hpost : Q ()) :
    Twin (Blind store other) Known HandshakeEvent Q (update 0 f) :=
  twin_onSession hf (by simp) hpost

theorem twin_send {message : Message} {Q : Unit → Prop}
    (h : HandshakeEvent (.output (.control message))) (hpost : Q ()) :
    Twin (Blind store other) Known HandshakeEvent Q (send 0 message) :=
  twin_onSession .refl (fun _ _ hmem => List.mem_singleton.mp hmem ▸ h) hpost

theorem twin_readSession {f : Session → α} (hpost : ∀ a, Q a) :
    Twin (Blind store other) Known HandshakeEvent Q (readSession 0 f) := by
  intro s s' hs
  refine ⟨by simp, .inr ⟨rfl, hs, ?_, hpost _⟩⟩
  simp only [Peer.session_eq, hs.session]

theorem twin_takeOutcome {Q : Message → Prop} (hpost : ∀ a, Q a) :
    Twin (Blind store other) Known HandshakeEvent Q (takeOutcome 0) := by
  refine Twin.bind (fun waiting _ => ?_) (twin_readSession (Q := fun _ => True) fun _ => trivial)
  refine Twin.bind (fun _ _ => ?_) (twin_update (Q := fun _ => True) Session.programStep_idle
    trivial)
  split
  · exact Twin.ofExcept fun a _ => hpost a
  · trivial

theorem twin_expect {type : MessageType} {Q : Message → Prop} (hpost : ∀ a, Q a) :
    Twin (Blind store other) Known HandshakeEvent Q (expect 0 type) := by
  refine Twin.bind (fun _ _ => ?_) (twin_update (Q := fun _ => True)
    (Session.programStep_expect type) trivial)
  refine ⟨fun s s' hs => ?_, twin_takeOutcome hpost⟩
  simp only [Peer.session_eq, hs.session]

theorem twin_fromBase64 {text reason : String} {Q : Bytes → Prop} (hpost : ∀ a, Q a) :
    Twin (Blind store other) Known HandshakeEvent Q (fromBase64 text reason) := by
  unfold fromBase64
  split
  · exact hpost _
  · trivial

/-- The handshake does not end before the peer is accepted. -/
theorem twin_handshake (auth : PeerAuthenticator) :
    Twin (Blind store other) Known HandshakeEvent (fun _ => False) (handshake 0 auth) := by
  refine Twin.bind (fun _ _ => ?_) (twin_send (Q := fun _ => True) (.inl rfl) trivial)
  refine Twin.bind (fun hello _ => ?_) (twin_expect (Q := fun _ => True) fun _ => trivial)
  split
  · dsimp only
    split
    · refine Twin.bind (fun _ _ => ?_)
        (twin_send (Q := fun _ => True) (.inr (.inr rfl)) trivial)
      trivial
    refine Twin.bind (fun key _ => ?_) (twin_fromBase64 (Q := fun _ => True) fun _ => trivial)
    refine Twin.bind (fun nonce _ => ?_) (twin_fromBase64 (Q := fun _ => True) fun _ => trivial)
    refine ⟨fun _ _ _ => rfl, ?_⟩
    refine Twin.bind (p := send 0 _) (fun _ _ => ?_) (twin_send (Q := fun _ => True) (.inr (.inl rfl)) trivial)
    refine Twin.bind (fun answer _ => ?_) (twin_expect (Q := fun _ => True) fun _ => trivial)
    split
    · refine Twin.bind (fun signature _ => ?_)
        (twin_fromBase64 (Q := fun _ => True) fun _ => trivial)
      dsimp only [Async.pause, Async.await_bind, Async.done_bind, Twin]
      refine ⟨fun _ _ _ => rfl, ?_⟩
      split
      · refine Twin.bind (fun _ _ => ?_)
          (twin_send (Q := fun _ => True) (.inr (.inr rfl)) trivial)
        trivial
      · -- The access that accepts the peer.
        exact fun s s' _ => ⟨by simp, .inl (by simp [Known])⟩
    · trivial
  · trivial

theorem stays_run {p : Async Peer PeerEvent Failure α} (h : Within RunAccess p) :
    Stays Known p := by
  exact h.mono fun _ _ _ haccess => haccess.known

end SyncSession

theorem stays_session {α : Type} {p : Async Peer PeerEvent Failure α}
    (h : Within SessionAccess p) : Stays Known p := by
  apply h.mono
  intro s events t haccess hs
  cases haccess with
  | run h => exact h.known hs
  | ingest h =>
    cases h with
    | program h => exact fun hnone => hs (h.remoteDeviceId ▸ hnone)
    | take => exact hs
    | accepted revisionId =>
      have h := Session.programStep_accepted revisionId s.session
      exact fun hnone => hs (h.remoteDeviceId.symm.trans hnone)
  | control payload =>
    exact fun hnone => hs ((Session.steps_accept payload s.session).remoteDeviceId ▸ hnone)
  | bulk frame =>
    have h := (Session.steps_acceptBulk frame s.session).inbound
    exact fun hnone => hs (h.remoteDeviceId ▸ hnone)

section

variable {store other : Store}

theorem twin_runToEnd (config : SessionDeps) :
    Twin (Blind store other) Known HandshakeEvent (fun _ => True) (runToEnd config) := by
  have hrun : Twin (Blind store other) Known HandshakeEvent (fun _ => True)
      (SyncSession.run 0 config fun _ => return ()) := by
    rw [SyncSession.run_eq]
    exact Twin.bind (fun _ h => h.elim) (SyncSession.twin_handshake config.auth)
  refine Twin.bind (fun _ _ => ?_) hrun.attempt
  intro s s' hs
  obtain ⟨hremote, hassemblers, hwork⟩ := hs.unknown
  refine ⟨by simp, .inr ⟨rfl, ⟨?_, ⟨hremote, hassemblers, hwork⟩, hs.store, hs.other⟩, rfl, trivial⟩⟩
  simp only [Peer.session_eq, Peer.setSession_eq, hs.session]

theorem twin_callback {event : PeerEvent} {f : Session → Session × List Output}
    (hevent : HandshakeEvent event)
    (hf : ∀ s : Session, s.Unknown → (f s).1.Unknown ∧ (f s).2 = []) :
    Twin (Blind store other) Known HandshakeEvent (fun _ => True) (callback event f) := by
  intro s s' hs
  obtain ⟨hunknown, hquiet⟩ := hf _ hs.unknown
  dsimp only
  rw [hs.session, hquiet]
  refine ⟨fun e he => ?_, .inr ⟨rfl, ⟨rfl, hunknown, hs.store, hs.other⟩, rfl, trivial⟩⟩
  exact List.mem_singleton.mp he ▸ hevent

theorem twin_peerSystem (deps : EngineDeps) (command : PeerCommand) {s s' : Peer}
    (hs : Blind store other s s') :
    peerSystem deps command s' = peerSystem deps command s ∧
      ∀ p, peerSystem deps command s = some p →
        Twin (Blind store other) Known HandshakeEvent (fun _ => True) p := by
  have hnote : ∀ f : Session → Session, (∀ s : Session, s.ProgramStep (f s)) →
      Twin (Blind store other) Known HandshakeEvent (fun _ => True) (SyncSession.update 0 f) :=
    fun f hf => SyncSession.twin_update hf trivial
  cases command with
  | control payload =>
    refine ⟨rfl, fun p hp => ?_⟩
    cases hp
    exact twin_callback trivial fun s hs => hs.accept payload
  | bulk frame =>
    refine ⟨rfl, fun p hp => ?_⟩
    cases hp
    exact twin_callback trivial fun s hs => hs.acceptBulk frame
  | close =>
    refine ⟨rfl, fun p hp => ?_⟩
    cases hp
    exact twin_callback trivial fun s hs =>
      ⟨⟨hs.remoteDeviceId, hs.assemblers, hs.inboundWork⟩, rfl⟩
  | timeout =>
    refine ⟨by simp only [peerSystem, hs.session], fun p hp => ?_⟩
    rw [peerSystem] at hp
    split at hp
    · cases hp
      exact hnote _ Session.programStep_timeout
    · cases hp
  | buffered | closeBulk =>
    refine ⟨rfl, fun p hp => ?_⟩
    cases hp
    exact hnote _ fun s => .same ⟨rfl, rfl, rfl, rfl, rfl, rfl, rfl, rfl⟩
  | ingestNext now =>
    have hnone : peerSystem deps (.ingestNext now) s = none := by
      simp [peerSystem, hs.unknown.inboundWork]
    refine ⟨by simp only [peerSystem, hs.session], fun p hp => ?_⟩
    rw [hnone] at hp
    cases hp

end

/-! ## What `verifyPeer` decides -/

/-- `verifyPeer` rejects some device. -/
def Rejects (auth : PeerAuthenticator) : Prop :=
  ∃ deviceId publicKey signature claimedName reason,
    auth.verifyPeer deviceId publicKey auth.nonce signature claimedName = .error reason

def Unauthorized (event : PeerEvent) : Prop :=
  ∃ reason, event = .output (.control (.error .unauthorized reason))

/-- Where a program of the pool is: `run` before and after `verifyPeer` has answered, a callback or
timer, a link of the `inboundWork` chain. -/
inductive Verdict where
  | undecided
  | rejected
  | decided
  | callback
  | ingest
deriving DecidableEq

/-- The peer is judged once. -/
inductive Judges (auth : PeerAuthenticator) :
    Verdict → Peer → List PeerEvent → Peer → Verdict → Prop where
  | same {g : Verdict} {s t : Peer} {events : List PeerEvent}
      (hmove : s.session.ProgramStep t.session) (hquiet : ∀ e ∈ events, ¬ Unauthorized e) :
    Judges auth g s events t g
  | ended {g : Verdict} {s : Peer} (result : Except Failure SessionResult) :
    Judges auth g s [] { s with session := { s.session with outcome := some result } } g
  | rejects {s t : Peer} {events : List PeerEvent} (hmove : s.session.ProgramStep t.session)
      (h : Rejects auth) : Judges auth .undecided s events t .rejected
  | accepts {s : Peer} {deviceId : DeviceId} (h : Accepts auth deviceId) :
    Judges auth .undecided s []
      { s with session := { s.session with remoteDeviceId := some deviceId } } .decided
  | decided {s t : Peer} {events : List PeerEvent} (hmove : s.session.ProgramStep t.session) :
    Judges auth .decided s events t .decided
  | callback {s t : Peer} {events : List PeerEvent}
      (hremote : t.session.remoteDeviceId = s.session.remoteDeviceId)
      (hunknown : s.session.Unknown → t.session.Unknown ∧ ∀ e ∈ events, ¬ Unauthorized e) :
    Judges auth .callback s events t .callback
  | ingest {s t : Peer} {events : List PeerEvent}
      (hremote : t.session.remoteDeviceId = s.session.remoteDeviceId) :
    Judges auth .ingest s events t .ingest

section Judges

variable {auth : PeerAuthenticator} {g : Verdict} {s : Peer} {α : Type}
  {onFail : Verdict → Peer → Prop}

theorem follows_onSession {Q : Verdict → Peer → Unit → Prop} {f : Session → Session × List Output}
    (hf : ∀ s : Session, s.ProgramStep (f s).1)
    (hquiet : ∀ s, ∀ output ∈ (f s).2, ¬ Unauthorized (.output output)) (hQ : ∀ s, Q g s ()) :
    Follows (Judges auth) Q onFail (SyncSession.onSession 0 f) g s := by
  refine ⟨g, .same (hf _) fun e he => ?_, hQ _⟩
  obtain ⟨output, hmem, rfl⟩ := List.mem_map.mp he
  exact hquiet _ output hmem

theorem follows_update {Q : Verdict → Peer → Unit → Prop} {f : Session → Session}
    (hf : ∀ s : Session, s.ProgramStep (f s)) (hQ : ∀ s, Q g s ()) :
    Follows (Judges auth) Q onFail (SyncSession.update 0 f) g s :=
  follows_onSession hf (by simp) hQ

theorem follows_send {Q : Verdict → Peer → Unit → Prop} {message : Message}
    (hquiet : ¬ Unauthorized (.output (.control message))) (hQ : ∀ s, Q g s ()) :
    Follows (Judges auth) Q onFail (SyncSession.send 0 message) g s :=
  follows_onSession .refl (fun _ _ hmem => List.mem_singleton.mp hmem ▸ hquiet) hQ

/-- What is expected arrives, or the program throws; the verdict is as it was. -/
theorem follows_expect {type : MessageType} (hfail : ∀ s, onFail g s) :
    Follows (Judges auth) (fun g' _ (_ : Message) => g' = g) onFail (SyncSession.expect 0 type) g
      s := by
  have hsame : ∀ {s : Peer} {f : Session → Session}, (∀ s : Session, s.ProgramStep (f s)) →
      Follows (Judges auth) (fun g' _ _ => g' = g) onFail (SyncSession.update 0 f) g s :=
    fun hf => follows_update hf fun _ => rfl
  refine Follows.bind ?_ (hsame (Session.programStep_expect type))
  rintro g' s' _ rfl t _
  have hread : Follows (Judges auth) (fun g'' _ (_ : Waiting) => g'' = g') onFail
      (SyncSession.readSession 0 (·.waiting)) g' t :=
    ⟨g', .same (.refl _) (by simp), rfl⟩
  refine Follows.bind ?_ hread
  rintro _ t waiting rfl
  refine Follows.bind ?_ (hsame Session.programStep_idle)
  rintro _ u _ rfl
  split
  · exact Follows.ofExcept (fun _ _ => rfl) fun _ _ => hfail _
  · exact hfail _

theorem follows_fromBase64 {text reason : String} (hfail : ∀ s, onFail g s) :
    Follows (Judges auth) (fun g' _ (_ : Bytes) => g' = g) onFail
      (SyncSession.fromBase64 text reason) g s := by
  unfold SyncSession.fromBase64
  split
  · exact rfl
  · exact hfail _

theorem follows_handshake :
    Follows (Judges auth) (fun g _ (_ : RemoteDevice) => g = .decided) (fun _ _ => True)
      (SyncSession.handshake 0 auth) .undecided s := by
  have hsend : ∀ {s : Peer} {message : Message}, ¬ Unauthorized (.output (.control message)) →
      Follows (Judges auth) (fun g _ _ => g = .undecided) (fun _ _ => True)
        (SyncSession.send 0 message) .undecided s :=
    fun hquiet => follows_send hquiet fun _ => rfl
  refine Follows.bind ?_ (hsend fun ⟨_, h⟩ => by cases h)
  rintro _ s _ rfl
  refine Follows.bind ?_ (follows_expect fun _ => trivial)
  rintro _ s hello rfl
  split
  · dsimp only
    split
    · refine Follows.bind ?_ (hsend fun ⟨_, h⟩ => by cases h)
      exact fun _ _ _ _ => trivial
    refine Follows.bind ?_ (follows_fromBase64 fun _ => trivial)
    rintro _ s key rfl
    refine Follows.bind ?_ (follows_fromBase64 fun _ => trivial)
    rintro _ s nonce rfl
    intro s _
    refine Follows.bind (p := SyncSession.send 0 _) ?_ (hsend fun ⟨_, h⟩ => by cases h)
    rintro _ s _ rfl
    refine Follows.bind ?_ (follows_expect fun _ => trivial)
    rintro _ s answer rfl
    split
    · refine Follows.bind ?_ (follows_fromBase64 fun _ => trivial)
      rintro _ s signature rfl
      intro s _
      split
      · rename_i reason hverify
        exact ⟨.rejected, .rejects (.refl _) ⟨_, _, _, _, _, hverify⟩, trivial⟩
      · rename_i name hverify
        refine ⟨.decided, .accepts ⟨_, _, _, _, hverify⟩, ?_⟩
        refine Follows.bind (p := SyncSession.emit 0 _) ?_ (follows_onSession .refl
          (Q := fun g _ _ => g = .decided) (fun _ _ hmem => ?_) fun _ => rfl)
        · rintro _ s _ rfl
          refine Follows.bind (p := SyncSession.emit 0 _) ?_ (follows_onSession .refl
            (Q := fun g _ _ => g = .decided) (fun _ _ hmem => ?_) fun _ => rfl)
          · exact fun _ _ _ h => h
          · rw [List.mem_singleton.mp hmem]
            exact fun ⟨_, h⟩ => by cases h
        · rw [List.mem_singleton.mp hmem]
          exact fun ⟨_, h⟩ => by cases h
    · trivial
  · trivial

theorem parks_runToEnd (config : SessionDeps) :
    Parks (Judges config.auth) (runToEnd config) .undecided := by
  intro s
  have hrun : Follows (Judges config.auth) (fun _ _ _ => True) (fun _ _ => True)
      (SyncSession.run 0 config fun _ => return ()) .undecided s := by
    rw [SyncSession.run_eq]
    refine Follows.bind ?_ follows_handshake
    rintro _ s remote rfl
    exact (SyncSession.within_exchange config remote).follows (fun _ _ _ h => .decided h.step)
      (fun _ _ => trivial) fun _ => trivial
  have hattempt : Follows (Judges config.auth) (fun _ _ _ => True) (fun _ _ => True)
      (SyncSession.run 0 config fun _ => return ()).attempt .undecided s :=
    hrun.attempt (fun _ _ _ _ => trivial) fun _ _ _ _ => trivial
  refine Follows.bind ?_ hattempt
  exact fun g s result _ => ⟨g, .ended result, trivial⟩

theorem outputs_ne_unauthorized {outputs : List Output} (h : outputs = []) {event : PeerEvent}
    (hevent : ¬ Unauthorized event) :
    ∀ e ∈ event :: outputs.map .output, ¬ Unauthorized e := by
  rw [h]
  exact fun e he => List.mem_singleton.mp he ▸ hevent

/-- What the peer, the timers and the network start while the peer is unknown or known. -/
theorem follows_peerSystem {deps : EngineDeps} {command : PeerCommand}
    {p : Async Peer PeerEvent Failure Unit} (h : peerSystem deps command s = some p) :
    (Parks (Judges auth) p .callback) ∨
      (Parks (Judges auth) p .ingest ∧ s.session.inboundWork ≠ []) := by
  have hcallback : ∀ {event : PeerEvent} {f : Session → Session × List Output},
      (∀ s : Session, (f s).1.remoteDeviceId = s.remoteDeviceId) →
      (∀ s : Session, s.Unknown → (f s).1.Unknown ∧ (f s).2 = []) → ¬ Unauthorized event →
      Parks (Judges auth) (callback event f) .callback :=
    fun hremote hunknown hevent s => ⟨.callback, .callback (hremote _) fun hs =>
      ⟨(hunknown _ hs).1, outputs_ne_unauthorized (hunknown _ hs).2 hevent⟩, trivial⟩
  cases command with
  | control payload =>
    cases h
    exact .inl (hcallback (fun s => (Session.steps_accept payload s).remoteDeviceId)
      (fun s hs => hs.accept payload) fun ⟨_, h⟩ => by cases h)
  | bulk frame =>
    cases h
    exact .inl (hcallback (fun s => (Session.steps_acceptBulk frame s).inbound.remoteDeviceId)
      (fun s hs => hs.acceptBulk frame) fun ⟨_, h⟩ => by cases h)
  | close =>
    cases h
    exact .inl (hcallback (fun _ => rfl)
      (fun s hs => ⟨⟨hs.remoteDeviceId, hs.assemblers, hs.inboundWork⟩, rfl⟩)
      fun ⟨_, h⟩ => by cases h)
  | timeout =>
    rw [peerSystem] at h
    split at h
    · cases h
      exact .inl fun s => follows_update Session.programStep_timeout fun _ => trivial
    · cases h
  | buffered | closeBulk =>
    cases h
    exact .inl fun s => follows_update
      (fun s => .same ⟨rfl, rfl, rfl, rfl, rfl, rfl, rfl, rfl⟩) fun _ => trivial
  | ingestNext now =>
    rw [peerSystem] at h
    split at h
    · cases h
    · obtain ⟨⟨inbound, bytes⟩, hhead, rfl⟩ := Option.map_eq_some_iff.mp h
      refine .inr ⟨fun s => ?_, fun hnil => by simp [hnil] at hhead⟩
      refine (SyncSession.within_ingestNext deps now inbound bytes).follows
        (fun s events t haccess => .ingest ?_) (fun _ _ => trivial) fun _ => trivial
      cases haccess with
      | program h => exact h.remoteDeviceId
      | take => rfl
      | accepted revisionId => exact (Session.programStep_accepted revisionId s.session).remoteDeviceId

/-- What holds between the verdict, the session and what was reported. -/
structure Judged (auth : PeerAuthenticator) (verdicts : List Verdict) (s : Peer)
    (log : List (Peer × PeerEvent)) : Prop where
  others : ∀ g ∈ verdicts.tail, g = .callback ∨ g = .ingest
  unknown : s.session.remoteDeviceId = none →
    s.session.Unknown ∧ ∀ x ∈ log, x.1.session.remoteDeviceId = none
  accepted : ∀ deviceId, s.session.remoteDeviceId = some deviceId → Accepts auth deviceId
  known : .decided ∈ verdicts ∨ .ingest ∈ verdicts → Known s
  rejected : (∃ x ∈ log, x.1.session.remoteDeviceId = none ∧ Unauthorized x.2) →
    s.session.remoteDeviceId = none ∧ Rejects auth ∧ verdicts.head? = some .rejected

/-- A verdict other than those of callbacks and ingests is that of `run`. -/
theorem Judged.eq_cons {verdicts : List Verdict} {log : List (Peer × PeerEvent)}
    (h : Judged auth verdicts s log) {i : Nat} (hi : verdicts[i]? = some g)
    (hcallback : g ≠ .callback) (hingest : g ≠ .ingest) :
    i = 0 ∧ ∃ rest, verdicts = g :: rest :=
  head_of_tail h.others hi fun hg => hg.elim hcallback hingest

theorem mem_log_events {log : List (Peer × PeerEvent)} {events : List PeerEvent}
    {x : Peer × PeerEvent} (hx : x ∈ log ++ events.map (s, ·)) :
    x ∈ log ∨ x.1 = s ∧ x.2 ∈ events := by
  rcases List.mem_append.mp hx with hx | hx
  · exact .inl hx
  · obtain ⟨e, he, rfl⟩ := List.mem_map.mp hx
    exact .inr ⟨rfl, he⟩

/-- Steps that do not change the verdict. -/
theorem Judged.move {verdicts : List Verdict} {t : Peer} {log : List (Peer × PeerEvent)}
    {events : List PeerEvent} (h : Judged auth verdicts s log)
    (hremote : t.session.remoteDeviceId = s.session.remoteDeviceId)
    (hunknown : s.session.Unknown → t.session.Unknown ∧ ∀ e ∈ events, ¬ Unauthorized e) :
    Judged auth verdicts t (log ++ events.map (s, ·)) := by
  refine ⟨h.others, fun hnone => ?_, fun deviceId hid => h.accepted deviceId (hremote ▸ hid),
    fun hg => ?_, ?_⟩
  · rw [hremote] at hnone
    obtain ⟨hs, hlog⟩ := h.unknown hnone
    refine ⟨(hunknown hs).1, fun x hx => ?_⟩
    rcases mem_log_events hx with hx | ⟨hx, -⟩
    · exact hlog x hx
    · exact hx ▸ hnone
  · exact fun hnone => h.known hg (hremote ▸ hnone)
  · rintro ⟨x, hx, hnone, hunauthorized⟩
    rw [hremote]
    rcases mem_log_events hx with hx | ⟨hx, hmem⟩
    · exact h.rejected ⟨x, hx, hnone, hunauthorized⟩
    · rw [hx] at hnone
      exact ((hunknown (h.unknown hnone).1).2 _ hmem hunauthorized).elim

theorem Judged.step {verdicts : List Verdict} {i : Nat} {g' : Verdict} {t : Peer}
    {log : List (Peer × PeerEvent)} {events : List PeerEvent} (hi : verdicts[i]? = some g)
    (h : Judged auth verdicts s log) (hstep : Judges auth g s events t g') :
    Judged auth (verdicts.set i g') t (log ++ events.map (s, ·)) := by
  have hsame : verdicts.set i g = verdicts := by
    obtain ⟨hlt, hget⟩ := List.getElem?_eq_some_iff.mp hi
    rw [← hget, List.set_getElem_self]
  have hmem := List.mem_of_getElem? hi
  cases hstep with
  | same hmove hquiet =>
    rw [hsame]
    exact h.move hmove.remoteDeviceId fun hs => ⟨hmove.unknown hs, hquiet⟩
  | ended result =>
    rw [hsame]
    exact h.move rfl fun hs => ⟨⟨hs.remoteDeviceId, hs.assemblers, hs.inboundWork⟩, by simp⟩
  | callback hremote hunknown =>
    rw [hsame]
    exact h.move hremote hunknown
  | decided hmove =>
    rw [hsame]
    exact h.move hmove.remoteDeviceId fun hs => (h.known (.inl hmem) hs.remoteDeviceId).elim
  | ingest hremote =>
    rw [hsame]
    exact h.move hremote fun hs => (h.known (.inr hmem) hs.remoteDeviceId).elim
  | rejects hmove hrejects =>
    obtain ⟨rfl, rest, rfl⟩ := h.eq_cons hi (by simp) (by simp)
    rw [List.set_cons_zero]
    refine ⟨h.others, fun hnone => ?_, fun deviceId hid => h.accepted deviceId
      (hmove.remoteDeviceId ▸ hid), fun hg => ?_, ?_⟩
    · rw [hmove.remoteDeviceId] at hnone
      obtain ⟨hs, hlog⟩ := h.unknown hnone
      refine ⟨hmove.unknown hs, fun x hx => ?_⟩
      rcases mem_log_events hx with hx | ⟨hx, -⟩
      · exact hlog x hx
      · exact hx ▸ hnone
    · have hg : .decided ∈ Verdict.undecided :: rest ∨ .ingest ∈ Verdict.undecided :: rest := by
        simpa using hg
      exact fun hnone => h.known hg (hmove.remoteDeviceId ▸ hnone)
    · rintro ⟨x, hx, hnone, hunauthorized⟩
      rcases mem_log_events hx with hx | ⟨hx, -⟩
      · obtain ⟨-, -, hhead⟩ := h.rejected ⟨x, hx, hnone, hunauthorized⟩
        cases hhead
      · exact ⟨hmove.remoteDeviceId.trans (hx ▸ hnone), hrejects, rfl⟩
  | accepts haccepts =>
    obtain ⟨rfl, rest, rfl⟩ := h.eq_cons hi (by simp) (by simp)
    rw [List.set_cons_zero]
    refine ⟨h.others, fun hnone => (by cases hnone), fun deviceId hid => ?_,
      fun _ => (by simp [Known]), ?_⟩
    · cases hid
      exact haccepts
    · rintro ⟨x, hx, hnone, hunauthorized⟩
      rcases mem_log_events hx with hx | ⟨-, hx⟩
      · obtain ⟨-, -, hhead⟩ := h.rejected ⟨x, hx, hnone, hunauthorized⟩
        cases hhead
      · cases hx

theorem Judged.start {deps : EngineDeps} {command : PeerCommand} {verdicts : List Verdict}
    {log : List (Peer × PeerEvent)} {p : Async Peer PeerEvent Failure Unit}
    (h : Judged auth verdicts s log) (hp : peerSystem deps command s = some p)
    (hne : verdicts ≠ []) :
    ∃ g, Judged auth (verdicts ++ [g]) s log ∧
      Follows (Judges auth) (fun _ _ _ => True) (fun _ _ => True) p g s := by
  have happend : ∀ g, (g = .callback ∨ g = .ingest) → (g = .ingest → Known s) →
      Judged auth (verdicts ++ [g]) s log := by
    intro g hg hingest
    refine ⟨fun g' hg' => ?_, h.unknown, h.accepted, fun hknown => ?_, fun hlog => ?_⟩
    · rw [List.tail_append_of_ne_nil hne] at hg'
      rcases List.mem_append.mp hg' with hg' | hg'
      · exact h.others g' hg'
      · exact List.mem_singleton.mp hg' ▸ hg
    · rcases hg with rfl | rfl
      · exact h.known (by simpa using hknown)
      · exact hingest rfl
    · obtain ⟨hnone, hrejects, hhead⟩ := h.rejected hlog
      exact ⟨hnone, hrejects, by rw [List.head?_append_of_ne_nil _ hne, hhead]⟩
  rcases follows_peerSystem hp with hcallback | ⟨hingest, hwork⟩
  · exact ⟨.callback, happend _ (.inl rfl) (by simp), hcallback s⟩
  · refine ⟨.ingest, happend _ (.inr rfl) fun _ hnone => ?_, hingest s⟩
    exact hwork (h.unknown hnone).1.inboundWork

end Judges

/-- However control messages and bulk frames arrive, what a session reports before the peer is
accepted is a message of the handshake; until then the store is left alone and plays no part; and
once `verifyPeer` has rejected the peer this stays so. -/
theorem nothing_before_auth (deps : EngineDeps) (config : SessionDeps)
    {start w : Pool Peer PeerEvent Failure} {moves : List (Move PeerCommand)}
    {log : List (Peer × PeerEvent)} (hstart : Starting config start)
    (h : start.record (peerSystem deps) moves = some (w, log)) :
    (∀ x ∈ log, x.1.session.remoteDeviceId = none → HandshakeEvent x.2) ∧
    (w.state.session.remoteDeviceId = none → w.state.store = start.state.store ∧
      ∀ other, ∃ w' log',
        Pool.record (peerSystem deps) moves
          { start with state := { start.state with store := other } } = some (w', log') ∧
        log'.map (·.2) = log.map (·.2) ∧ w'.state = { w.state with store := other } ∧
        w'.tasks = w.tasks) ∧
    (∀ deviceId, w.state.session.remoteDeviceId = some deviceId → Accepts config.auth deviceId) ∧
    ((∃ x ∈ log, x.1.session.remoteDeviceId = none ∧ Unauthorized x.2) → Rejects config.auth ∧
      w.state.session.remoteDeviceId = none ∧
      ∀ x ∈ log, x.1.session.remoteDeviceId = none) := by
  obtain ⟨hsession, htasks⟩ := hstart
  have hunknown : start.state.session.Unknown := hsession ▸ Session.unknown_new
  have hstays : Stays Known (await (fun _ => true) (runToEnd config)) :=
    SyncSession.stays_run (within_runToEnd config)
  have htwin : ∀ other, start.Twin (Blind start.state.store other) Known HandshakeEvent
      { start with state := { start.state with store := other } } := by
    refine fun other => ⟨⟨rfl, hunknown, rfl, rfl⟩, rfl, fun p hp => ?_, fun p hp => ?_⟩
    · rw [htasks] at hp
      rw [List.mem_singleton.mp hp]
      exact ⟨fun _ _ _ => rfl, twin_runToEnd config⟩
    · rw [htasks] at hp
      rw [List.mem_singleton.mp hp]
      exact hstays
  have hrecord := fun other => (htwin other).record
    (fun command _ _ hs => twin_peerSystem deps command hs)
    (fun _ _ _ hp => stays_session (within_peerSystem hp)) h
  have hfollows : start.Follows (Judges config.auth)
      (fun verdicts s log => Judged config.auth verdicts s log ∧ verdicts ≠ []) [.undecided] [] := by
    refine ⟨⟨⟨by simp, fun _ => ⟨hunknown, by simp⟩, ?_, by simp, by simp⟩, by simp⟩,
      by rw [htasks]; rfl, fun i p g hp hg => ?_⟩
    · rw [hunknown.remoteDeviceId]
      exact fun _ hid => by cases hid
    · cases i with
      | zero =>
        rw [htasks] at hp
        cases hp
        cases hg
        exact fun _ s _ => parks_runToEnd config s
      | succ i => cases hg
  obtain ⟨verdicts, hjudged, -⟩ := hfollows.record
    (fun verdicts i g s log events t g' hi hs hstep =>
      ⟨hs.1.step hi hstep, by simpa using hs.2⟩)
    (fun verdicts command s log p hs hp => by
      obtain ⟨g, hg, hp⟩ := hs.1.start hp hs.2
      exact ⟨g, ⟨hg, by simp⟩, hp⟩) h
  refine ⟨fun x hx hnone => ?_, fun hnone => ?_, hjudged.accepted, fun hlog => ?_⟩
  · exact ((hrecord start.state.store).1 x hx).resolve_left fun hknown => hknown hnone
  · have hrun := fun other => (hrecord other).2.resolve_left fun hknown => hknown hnone
    refine ⟨?_, fun other => ?_⟩
    · obtain ⟨w', log', -, -, hw⟩ := hrun start.state.store
      exact hw.state.store
    · obtain ⟨w', log', hrecord', hevents, hw⟩ := hrun other
      refine ⟨w', log', hrecord', hevents, ?_, hw.tasks⟩
      show w'.state = (⟨other, w.state.session⟩ : Peer)
      rw [← hw.state.session, ← hw.state.other]
  · obtain ⟨hnone, hrejects, -⟩ := hjudged.rejected hlog
    exact ⟨hrejects, hnone, (hjudged.unknown hnone).2⟩

open SessionEnd in
/-- The desk says hello to a phone that sends a header at once. -/
theorem nothing_before_auth_desk :
    ∃ w log, deskStart.record (peerSystem deskDeps)
        [.resume 0, .start (.control (.ok (.revisionHeader
          ⟨1, ⟨"vault"⟩, ⟨"r"⟩, ⟨""⟩, 0, [], 1, none⟩)))] = some (w, log) ∧
      log.length = 2 ∧ ∀ x ∈ log, x.1.session.remoteDeviceId = none → HandshakeEvent x.2 := by
  have hplay : ((deskStart.record (peerSystem deskDeps)
      [.resume 0, .start (.control (.ok (.revisionHeader
        ⟨1, ⟨"vault"⟩, ⟨"r"⟩, ⟨""⟩, 0, [], 1, none⟩)))]).map (·.2.length)) = some 2 := by
    decide +kernel
  obtain ⟨⟨w, log⟩, hrecord, hlength⟩ := Option.map_eq_some_iff.mp hplay
  exact ⟨w, log, hrecord, hlength,
    (nothing_before_auth deskDeps deskConfig ⟨rfl, rfl⟩ hrecord).1⟩

end PassVault
