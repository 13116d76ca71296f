import PassVault.Sync.Confinement

/-!
# What a session does between its messages

`run` reads the store, waits, and notes what it goes by. None of this says anything to the peer,
touches an inbound transfer or adds to the history.
-/

namespace PassVault

open Async

/-- The event is neither said to the peer nor heard from it, unless it answers a transfer. -/
def Hushed : PeerEvent → Prop
  | .output (.control (.revisionAck ..)) => True
  | .output (.control _) => False
  | .output (.bulk _) => False
  | .output (.event _) => True
  | .delivered _ => False
  | _ => True

theorem Session.Answer.hushed {output : Output} (h : Answer output) : Hushed (.output output) := by
  rcases h with ⟨_, _, _, rfl⟩ | ⟨_, _, rfl⟩ | ⟨_, rfl⟩ <;> trivial

/-- The stores hold the same revisions, and a transaction would be rolled back to the same. -/
structure Store.SameHistory (s t : Store) : Prop where
  revisions : t.tables.revisions = s.tables.revisions
  revisionParents : t.tables.revisionParents = s.tables.revisionParents
  snapshot : t.snapshot = s.snapshot

theorem Store.SameHistory.refl (s : Store) : s.SameHistory s := ⟨rfl, rfl, rfl⟩

/-- An access that the conversation, the inbound transfers and the history do not depend on. -/
structure Quiet (s : Peer) (events : List PeerEvent) (t : Peer) : Prop where
  hushed : ∀ e ∈ events, Hushed e
  unsaved : ∀ revision, .engine (.saved revision) ∉ events
  ack : t.session.ack = s.session.ack
  outcome : t.session.outcome = s.session.outcome
  headers : t.session.headers = s.session.headers
  history : s.store.SameHistory t.store

namespace SyncSession

variable {α : Type}

/-! ## The session -/

theorem quiet_onSession {f : Session → Session × List Output}
    (hsame : ∀ s, (f s).1.ack = s.ack ∧ (f s).1.outcome = s.outcome ∧
      (f s).1.headers = s.headers)
    (hhushed : ∀ s, ∀ output ∈ (f s).2, Hushed (.output output)) :
    Within Quiet (onSession 0 f : Async Peer PeerEvent Failure Unit) := by
  refine fun s => ⟨⟨fun e hmem => ?_, fun _ hmem => ?_, (hsame s.session).1,
    (hsame s.session).2.1, (hsame s.session).2.2, .refl s.store⟩, trivial⟩
  · obtain ⟨output, houtput, rfl⟩ := List.mem_map.mp hmem
    exact hhushed s.session output houtput
  · obtain ⟨_, _, hevent⟩ := List.mem_map.mp hmem
    cases hevent

theorem quiet_update {f : Session → Session}
    (hsame : ∀ s, (f s).ack = s.ack ∧ (f s).outcome = s.outcome ∧ (f s).headers = s.headers) :
    Within Quiet (update 0 f : Async Peer PeerEvent Failure Unit) :=
  quiet_onSession hsame (by simp)

theorem quiet_event {f : Session → Session} {event : Session → SessionEvent}
    (hsame : ∀ s, (f s).ack = s.ack ∧ (f s).outcome = s.outcome ∧ (f s).headers = s.headers) :
    Within Quiet (onSession 0 fun s => (f s, [.event (event s)]) :
      Async Peer PeerEvent Failure Unit) :=
  quiet_onSession hsame fun _ _ hmem => List.mem_singleton.mp hmem ▸ trivial

theorem quiet_emit {event : SessionEvent} :
    Within Quiet (emit 0 event : Async Peer PeerEvent Failure Unit) :=
  quiet_event fun _ => ⟨rfl, rfl, rfl⟩

theorem quiet_readSession (f : Session → α) :
    Within Quiet (readSession 0 f : Async Peer PeerEvent Failure α) :=
  fun s => ⟨⟨by simp, by simp, rfl, rfl, rfl, .refl s.store⟩, trivial⟩

theorem quiet_takeOutcome :
    Within Quiet (takeOutcome 0 : Async Peer PeerEvent Failure Message) := by
  refine (quiet_readSession _).bind fun waiting => ?_
  refine Within.bind (p := update 0 _) (quiet_update fun _ => ⟨rfl, rfl, rfl⟩) fun _ => ?_
  split
  · exact Within.ofExcept _
  · trivial

theorem quiet_expect (type : MessageType) :
    Within Quiet (expect 0 type : Async Peer PeerEvent Failure Message) := by
  refine (quiet_update fun s => ?_).bind fun _ => quiet_takeOutcome
  unfold Session.expect
  split
  · exact ⟨rfl, rfl, rfl⟩
  · split
    · exact ⟨rfl, rfl, rfl⟩
    · split
      · exact ⟨rfl, rfl, rfl⟩
      · exact ⟨rfl, rfl, rfl⟩

theorem quiet_fromBase64 (text reason : String) :
    Within Quiet (fromBase64 text reason : Async Peer PeerEvent Failure Bytes) := by
  unfold fromBase64
  split
  · trivial
  · trivial

theorem quiet_backpressure (highWaterBytes : Nat) :
    Within Quiet (backpressure 0 highWaterBytes : Async Peer PeerEvent Failure Unit) := by
  refine (quiet_readSession _).bind fun buffered => ?_
  split
  · trivial
  · trivial

theorem quiet_awaitCompletion :
    Within Quiet (awaitCompletion 0 : Async Peer PeerEvent Failure Unit) := by
  refine Within.bind (p := update 0 _) (quiet_update fun _ => ⟨rfl, rfl, rfl⟩) fun _ => ?_
  exact Within.bind (p := .await _ _) quiet_takeOutcome fun _ => trivial

theorem quiet_awaitInbound :
    Within Quiet (awaitInbound 0 : Async Peer PeerEvent Failure Unit) :=
  (quiet_readSession _).bind fun _ => trivial

/-! ## The store -/

theorem quiet_query (f : Tables → α) :
    Within Quiet (query f : Async Peer PeerEvent Failure α) :=
  fun s => ⟨⟨by simp, by simp, rfl, rfl, rfl, .refl s.store⟩, trivial⟩

theorem quiet_getBlob (hash : Sha256Hex) :
    Within Quiet (getBlob hash : Async Peer PeerEvent Failure Bytes) := by
  refine fun s => ⟨⟨by simp, by simp, rfl, rfl, rfl, .refl s.store⟩, ?_⟩
  dsimp only [Within]
  split
  · trivial
  · trivial

/-- A statement that leaves the revisions alone. -/
theorem quiet_execute {f : Tables → Except Failure Tables} (events : List (EngineEvent Unit))
    (hunsaved : ∀ e ∈ events, Unsaving e)
    (hf : ∀ t t', f t = .ok t' → t'.revisions = t.revisions ∧
      t'.revisionParents = t.revisionParents) :
    Within Quiet (execute f (events.map (event Peer)) : Async Peer PeerEvent Failure Unit) := by
  refine fun s => ⟨?_, Within.ofExcept _⟩
  dsimp only
  cases hok : f (store s).tables with
  | error error => exact ⟨by simp, by simp, rfl, rfl, rfl, .refl s.store⟩
  | ok tables =>
    dsimp only
    rw [Peer.changeStore_eq]
    refine ⟨fun e hmem => ?_, fun revision hmem => ?_, rfl, rfl, rfl,
      ⟨(hf _ _ hok).1, (hf _ _ hok).2, rfl⟩⟩
    · obtain ⟨_, _, rfl⟩ := List.mem_map.mp hmem
      trivial
    · obtain ⟨e, he, hevent⟩ := List.mem_map.mp hmem
      cases hevent
      exact hunsaved _ he revision rfl

theorem quiet_bytesOf (revisionId : RevisionId) :
    Within Quiet (SyncEngine.bytesOf revisionId : Async Peer PeerEvent Failure Bytes) := by
  refine Within.bind ((quiet_query _).bind fun found => ?_) fun _ => quiet_getBlob _
  split
  · trivial
  · trivial

theorem quiet_localVault (vaultId : Option VaultId) :
    Within Quiet (localVault vaultId : Async Peer PeerEvent Failure (Option Vault)) := by
  cases vaultId with
  | none => trivial
  | some vaultId => exact quiet_query (·.getVault vaultId)

theorem quiet_computeWants (vaultId : VaultId) (graph : RevisionGraph)
    (remoteHead : Option RevisionId) :
    Within Quiet (computeWants vaultId graph remoteHead :
      Async Peer PeerEvent Failure (List RevisionId)) := by
  cases remoteHead with
  | none => trivial
  | some head => exact Within.bind (quiet_query _) fun _ => Within.ofExcept _

theorem quiet_adoptVault (now : Nat) (vaultId : VaultId) (name : String) :
    Within Quiet (SyncEngine.adoptVault now vaultId name :
      Async Peer PeerEvent Failure Vault) := by
  refine Within.bind (quiet_query _) fun found => ?_
  split
  · trivial
  · refine Within.bind (quiet_execute [_] (fun e he revision hsaved => ?_)
      fun t t' hok => ?_) fun _ => trivial
    · rw [List.mem_singleton.mp he] at hsaved
      cases hsaved
    · cases hok
      exact ⟨rfl, rfl⟩

theorem quiet_recordPeerHead (now : Nat) (deviceId : DeviceId) (vaultId : VaultId)
    (head : RevisionId) :
    Within Quiet (SyncEngine.recordPeerHead now deviceId vaultId head :
      Async Peer PeerEvent Failure Unit) := by
  refine quiet_execute [] (by simp) fun t t' hok => ?_
  rw [Tables.recordPeerHead] at hok
  split at hok
  · cases hok
    exact ⟨rfl, rfl⟩
  · cases hok

theorem quiet_classify (vaultId : VaultId) (graph : RevisionGraph)
    (remoteHead : Option RevisionId) :
    Within Quiet (classify vaultId graph remoteHead :
      Async Peer PeerEvent Failure Divergence) := by
  refine Within.bind (quiet_query _) fun vault => ?_
  split
  · trivial
  · trivial
  · trivial
  · exact Within.bind (quiet_query _) fun _ => trivial

theorem quiet_conclude (remote : RemoteDevice) (vaultId : VaultId) (remoteGraph : RevisionGraph)
    (remoteHead : Option RevisionId) :
    Within Quiet (conclude remote vaultId remoteGraph remoteHead) := by
  refine (quiet_readSession _).bind ?_
  rintro ⟨received, sent, missing⟩
  exact (quiet_classify _ _ _).bind fun _ => trivial

end SyncSession

end PassVault
