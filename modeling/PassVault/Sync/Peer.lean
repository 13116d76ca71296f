import PassVault.Sync.Session

/-!
# A device in one session

A store, one session and the callbacks of its channels. `run` is at the first place of the pool;
everything started later answers a channel, a timer or the `inboundWork` chain.
-/

namespace PassVault

open Async

/-! ## Engine operations leave sessions alone -/

section StoreOnly

variable {σ ω ε α : Type} [EngineState σ ω ε] {emits : EngineEvent ω → Prop}

/-- Nothing happens, or only the store changes. -/
def StoreStep (s t : σ) : Prop := t = s ∨ ∃ f events, t = (changeStore f events s).1

/-- A program that only uses the store, reports no other event than it `emits`, and never waits for
a turn. -/
abbrev StoreOnly (emits : EngineEvent ω → Prop) (p : Async σ ε Failure α) : Prop :=
  Framed StoreStep (fun e => ∃ e', e = event σ e' ∧ emits e') p

theorem storeOnly_query (f : Tables → α) :
    StoreOnly emits (query f : Async σ ε Failure α) :=
  fun _ => ⟨.inl rfl, by simp, fun _ => rfl, trivial⟩

theorem storeOnly_ofExcept {result : Except Failure α} :
    StoreOnly emits (Async.ofExcept result : Async σ ε Failure α) := by
  cases result <;> trivial

theorem storeOnly_execute (f : Tables → Except Failure Tables) (events : List (EngineEvent ω))
    (h : ∀ e ∈ events, emits e) :
    StoreOnly emits (execute f (events.map (event σ)) : Async σ ε Failure Unit) := by
  intro s
  dsimp only
  split
  · refine ⟨.inr ⟨_, _, rfl⟩, fun e he => ?_, fun _ => rfl, storeOnly_ofExcept⟩
    obtain ⟨e', he', rfl⟩ := List.mem_map.mp he
    exact ⟨e', rfl, h e' he'⟩
  · exact ⟨.inl rfl, by simp, fun _ => rfl, storeOnly_ofExcept⟩

theorem storeOnly_putBlob (sha256 : Bytes → Sha256Hex) (bytes : Bytes) :
    StoreOnly emits (putBlob sha256 bytes : Async σ ε Failure Sha256Hex) :=
  fun _ => ⟨.inr ⟨_, _, rfl⟩, by simp [changeStore], fun _ => rfl, trivial⟩

theorem storeOnly_getBlob (hash : Sha256Hex) :
    StoreOnly emits (getBlob hash : Async σ ε Failure Bytes) := by
  refine fun s => ⟨.inl rfl, by simp, fun _ => rfl, ?_⟩
  split <;> trivial

theorem storeOnly_requireRevision (revisionId : RevisionId) :
    StoreOnly emits (SyncEngine.requireRevision revisionId : Async σ ε Failure Revision) := by
  refine Framed.bind (fun revision => ?_) (storeOnly_query _)
  split <;> trivial

theorem storeOnly_bytesOf (revisionId : RevisionId) :
    StoreOnly emits (SyncEngine.bytesOf revisionId : Async σ ε Failure Bytes) :=
  Framed.bind (fun _ => storeOnly_getBlob _) (storeOnly_requireRevision _)

theorem storeOnly_firstMissing (ids : List RevisionId) :
    StoreOnly emits (SyncEngine.firstMissing ids : Async σ ε Failure (Option RevisionId)) := by
  induction ids with
  | nil => trivial
  | cons id rest ih =>
    refine Framed.bind (fun found => ?_) (storeOnly_query _)
    split
    · exact ih
    · trivial

/-- The revision is the one that was to be ingested. -/
structure IngestInput.Describes (input : IngestInput) (revision : Revision) : Prop where
  id : revision.id = input.revisionId
  vaultId : revision.vaultId = input.vaultId
  hash : revision.hash = input.declaredHash
  parentIds : revision.parentIds = input.declaredParentIds

theorem storeOnly_ingest (deps : EngineDeps) (now : Nat) {input : IngestInput}
    (h : ∀ revision, input.Describes revision → emits (.saved revision)) :
    StoreOnly emits (SyncEngine.ingestReceivedRevision deps now input :
      Async σ ε Failure IngestResult) := by
  refine Framed.bind (fun found => ?_) (storeOnly_query _)
  split
  · trivial
  dsimp only
  split
  · trivial
  rename_i hhash
  refine Framed.bind (fun missing => ?_) (storeOnly_firstMissing _)
  split
  · trivial
  refine Framed.bind (fun hash => ?_) (storeOnly_putBlob _ _)
  cases hreceived : receivedRevision
      ⟨input.revisionId, input.vaultId, deps.sha256 input.bytes, input.bytes.length, now,
        input.message⟩ input.declaredParentIds input.fromDeviceId with
  | error error => trivial
  | ok revision =>
    obtain ⟨-, rfl⟩ := receivedRevision_ok hreceived
    simp only [Async.ofExcept_ok, Async.done_bind]
    refine Framed.bind (fun _ => ?_) (storeOnly_execute _ [_] fun e he => ?_)
    · trivial
    · rw [List.mem_singleton.mp he]
      exact h _ ⟨rfl, rfl, not_not.mp hhash, rfl⟩

theorem storeOnly_adoptVault (now : Nat) (vaultId : VaultId) (name : String)
    (h : ∀ vault, emits (.wroteVault vault .adopted)) :
    StoreOnly emits (SyncEngine.adoptVault now vaultId name : Async σ ε Failure Vault) := by
  refine Framed.bind (fun found => ?_) (storeOnly_query _)
  split
  · trivial
  · refine Framed.bind (fun _ => ?_) (storeOnly_execute _ [_] fun e he => ?_)
    · trivial
    · rw [List.mem_singleton.mp he]
      exact h _

theorem storeOnly_recordPeerHead (now : Nat) (deviceId : DeviceId) (vaultId : VaultId)
    (head : RevisionId) :
    StoreOnly emits (SyncEngine.recordPeerHead now deviceId vaultId head :
      Async σ ε Failure Unit) :=
  storeOnly_execute _ [] (by simp)

theorem storeOnly_historySummary (vaultId : VaultId) :
    StoreOnly emits (SyncEngine.historySummary vaultId :
      Async σ ε Failure (List HistorySummaryEntry)) :=
  storeOnly_query fun t => t.historySummary vaultId

end StoreOnly

section StoreOnly

variable {σ ω ε α : Type} [SessionState σ ω ε] {emits : EngineEvent ω → Prop}

theorem storeOnly_localVault (vaultId : Option VaultId) :
    StoreOnly emits (SyncSession.localVault vaultId : Async σ ε Failure (Option Vault)) := by
  cases vaultId with
  | none => trivial
  | some vaultId => exact storeOnly_query fun t => t.getVault vaultId

theorem storeOnly_computeWants (vaultId : VaultId) (graph : RevisionGraph)
    (remoteHead : Option RevisionId) :
    StoreOnly emits (SyncSession.computeWants vaultId graph remoteHead :
      Async σ ε Failure (List RevisionId)) := by
  cases remoteHead with
  | none => trivial
  | some head =>
    exact Framed.bind (fun _ => storeOnly_ofExcept) (storeOnly_historySummary _)

theorem storeOnly_classify (vaultId : VaultId) (graph : RevisionGraph)
    (remoteHead : Option RevisionId) :
    StoreOnly emits (SyncSession.classify vaultId graph remoteHead :
      Async σ ε Failure Divergence) := by
  refine Framed.bind (fun vault => ?_) (storeOnly_query _)
  split
  · trivial
  · trivial
  · trivial
  · refine Framed.bind (fun _ => ?_) (storeOnly_historySummary _)
    trivial

end StoreOnly

structure Peer where
  store : Store
  session : Session

inductive PeerEvent where
  | engine (event : EngineEvent Unit)
  | output (output : Output)
  /-- A control payload, as `parseMessage` reads it. -/
  | delivered (payload : Except Failure Message)
  | arrived (frame : Bytes)
  | closed

namespace Peer

instance : SessionState Peer Unit PeerEvent where
  store s := s.store
  setStore store s := { s with store }
  note _ s := s
  store_setStore _ _ := rfl
  event := .engine
  session _ s := s.session
  setSession _ session s := { s with session }
  output _ := .output
  store_setSession _ _ _ := rfl
  session_setSession _ _ _ := rfl

@[simp] theorem store_eq (s : Peer) : PassVault.store s = s.store := rfl

@[simp] theorem session_eq (k : Nat) (s : Peer) : PassVault.session k s = s.session := rfl

@[simp] theorem setSession_eq (k : Nat) (x : Session) (s : Peer) :
    PassVault.setSession k x s = { s with session := x } := rfl

theorem changeStore_eq (f : Store → Store) (events : List PeerEvent) (s : Peer) :
    changeStore f events s = ({ s with store := f s.store }, events) := by
  have hnote : events.foldl (fun s e => note e s) s = s := by
    induction events with
    | nil => rfl
    | cons e rest ih => exact ih
  unfold changeStore
  rw [hnote]
  rfl

theorem session_storeStep {s t : Peer} (h : StoreStep s t) : t.session = s.session := by
  rcases h with rfl | ⟨f, events, rfl⟩
  · rfl
  · rw [changeStore_eq]

end Peer

/-- `run`, with its outcome kept. -/
def runToEnd (config : SessionDeps) : Async Peer PeerEvent Failure Unit := do
  let result ← (SyncSession.run 0 config fun _ => return ()).attempt
  SyncSession.update 0 fun s => { s with outcome := some result }

inductive PeerCommand where
  | control (payload : Except Failure Message)
  | bulk (frame : Bytes)
  | close
  | timeout
  | buffered (bytes : Nat)
  | closeBulk
  | ingestNext (now : Nat)

/-- A channel callback. -/
def callback (event : PeerEvent) (f : Session → Session × List Output) :
    Async Peer PeerEvent Failure Unit :=
  .act (fun s => ({ s with session := (f s.session).1 }, event :: (f s.session).2.map .output))
    fun _ => .done ()

def peerSystem (deps : EngineDeps) : Async.System Peer PeerEvent Failure PeerCommand
  | .control payload, _ => some (callback (.delivered payload) (·.accept payload))
  | .bulk frame, _ => some (callback (.arrived frame) (·.acceptBulk frame))
  | .close, _ => some (callback .closed fun s => (s.onClose, []))
  | .timeout, s => if s.session.timerArmed then some (SyncSession.update 0 (·.timeout)) else none
  | .buffered bytes, _ => some (SyncSession.update 0 fun s => { s with buffered := bytes })
  | .closeBulk, _ => some (SyncSession.update 0 fun s => { s with bulkClosed := true })
  | .ingestNext now, s =>
    if s.session.ingesting then none
    else s.session.inboundWork.head?.map fun (inbound, bytes) =>
      SyncSession.ingestNext 0 deps now inbound bytes

/-- A session whose `run` was just called. -/
def Starting (config : SessionDeps) (w : Async.Pool Peer PeerEvent Failure) :
    Prop :=
  w.state.session = .new ∧ w.tasks = [.await (fun _ => true) (runToEnd config)]

/-- The moves a device makes without its peer, its timers or the network. -/
def Internal : Async.Move PeerCommand → Prop
  | .resume _ => True
  | .start (.ingestNext _) => True
  | .start _ => False

end PassVault
