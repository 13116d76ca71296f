import PassVault.Lib.Parties
import PassVault.Sync.Confinement
import PassVault.Sync.StoredHistory

/-!
# Devices that share vaults

A device makes calls of the engine, and has any number of sessions over the same store. What
reaches a session may be late, repeated, lost, meant for another session, or made up; only revision
headers are what some device has sent.
-/

namespace PassVault

open Async

structure Node where
  store : Store
  sessions : Nat → Session
  /-- How many sessions were opened. -/
  opened : Nat

inductive NodeEvent where
  | engine (event : EngineEvent Unit)
  | output (k : Nat) (output : Output)
  /-- A control payload, as `parseMessage` reads it. -/
  | delivered (k : Nat) (payload : Except Failure Message)

/-- The call on any state, its result dropped. -/
def Operation.call {σ ε : Type} [EngineState σ Unit ε] (deps : EngineDeps) :
    Operation → Async σ ε Failure Unit
  | importVault vaultId stamp name bytes kdbxPath => do
    let _ ← SyncEngine.importVault deps vaultId stamp name bytes kdbxPath
  | recordLocalChange stamp vaultId bytes => do
    let _ ← SyncEngine.recordLocalChange deps stamp vaultId bytes ()
  | ingestReceivedRevision now input => do
    let _ ← SyncEngine.ingestReceivedRevision deps now input
  | merge stamp vaultId baseRevisionId incomingRevisionIds message => do
    let _ ← SyncEngine.merge deps stamp vaultId baseRevisionId incomingRevisionIds message
  | promote now vaultId revisionId => do
    let _ ← SyncEngine.promote now vaultId revisionId
  | fastForward now vaultId revisionId => do
    let _ ← SyncEngine.fastForward now vaultId revisionId ()
  | adoptVault now vaultId name => do
    let _ ← SyncEngine.adoptVault now vaultId name
  | bindVaultToFile vaultId kdbxPath => do
    let _ ← SyncEngine.bindVaultToFile vaultId kdbxPath

theorem Operation.call_store (deps : EngineDeps) (operation : Operation) :
    operation.call deps = operation.program deps := by
  cases operation <;> rfl

/-- Only sessions ingest. -/
def Operation.isLocal : Operation → Bool
  | ingestReceivedRevision .. => false
  | _ => true

/-- What is left of a store when the process ends: SQLite rolls back an open transaction. -/
def Store.reopen (s : Store) : Store :=
  ⟨s.snapshot.getD s.tables, s.blobs, 0, none, 0, 0, 0⟩

namespace Node

def new : Node := ⟨.empty, fun _ => .new, 0⟩

def restart (s : Node) : Node := ⟨s.store.reopen, fun _ => .new, 0⟩

instance : SessionState Node Unit NodeEvent where
  store s := s.store
  setStore store s := { s with store }
  note _ s := s
  store_setStore _ _ := rfl
  event := .engine
  session k s := s.sessions k
  setSession k session s := { s with sessions := Function.update s.sessions k session }
  output := .output
  store_setSession _ _ _ := rfl
  session_setSession _ _ _ := Function.update_self ..

@[simp] theorem store_eq (s : Node) : PassVault.store s = s.store := rfl

@[simp] theorem session_eq (k : Nat) (s : Node) : PassVault.session k s = s.sessions k := rfl

theorem changeStore_eq (f : Store → Store) (events : List NodeEvent) (s : Node) :
    changeStore f events s = ({ s with store := f s.store }, events) := by
  have hnote : events.foldl (fun s e => note e s) s = s := by
    induction events with
    | nil => rfl
    | cons e rest ih => exact ih
  unfold changeStore
  rw [hnote]
  rfl

/-- The control channel of a session delivers a payload. -/
def deliver (k : Nat) (payload : Except Failure Message) : Async Node NodeEvent Failure Unit :=
  .act
    (fun s =>
      let (session, outputs) := (s.sessions k).accept payload
      (setSession k session s, .delivered k payload :: outputs.map (.output k)))
    fun _ => .done ()

/-- A session over channels that were just opened. -/
def connect (config : SessionDeps) : Async Node NodeEvent Failure Unit :=
  .act (fun s => ({ s with opened := s.opened + 1 }, [])) fun s => do
    let _ ← (SyncSession.run s.opened config fun _ => return ()).attempt

/-- What happens to an open session. -/
def sessionSystem (deps : EngineDeps) (k : Nat) : System Node NodeEvent Failure PeerCommand
  | .control payload, _ => some (deliver k payload)
  | .bulk frame, _ => some (SyncSession.onSession k (·.acceptBulk frame))
  | .close, _ => some (SyncSession.update k (·.onClose))
  | .timeout, s =>
    if (s.sessions k).timerArmed then some (SyncSession.update k (·.timeout)) else none
  | .buffered bytes, _ => some (SyncSession.update k fun s => { s with buffered := bytes })
  | .closeBulk, _ => some (SyncSession.update k fun s => { s with bulkClosed := true })
  | .ingestNext now, s =>
    if (s.sessions k).ingesting then none
    else (s.sessions k).inboundWork.head?.map fun (inbound, bytes) =>
      SyncSession.ingestNext k deps now inbound bytes

end Node

inductive NodeCommand where
  | engine (operation : Operation)
  | connect (config : SessionDeps)
  | session (k : Nat) (command : PeerCommand)

def nodeSystem (deps : EngineDeps) : System Node NodeEvent Failure NodeCommand
  | .engine operation, _ => if operation.isLocal then some (operation.call deps) else none
  | .connect config, _ => some (Node.connect config)
  | .session k command, s =>
    if k < s.opened then Node.sessionSystem deps k command s else none

namespace NodeEvent

/-- The revision header that a session sends. -/
def sent : NodeEvent → Option RevisionHeader
  | .output _ (.control (.revisionHeader header)) => some header
  | _ => none

/-- The revision header that a session is told. -/
def told : NodeEvent → Option RevisionHeader
  | .delivered _ (.ok (.revisionHeader header)) => some header
  | _ => none

/-- The revision that a device made, and did not receive. -/
def created : NodeEvent → Option Revision
  | .engine (.saved revision) => if revision.operation = .received then none else some revision
  | _ => none

end NodeEvent

/-- What is told in a header was sent by some device. -/
def Heard {ι : Type} (log : List (ι × NodeEvent)) (e : NodeEvent) : Prop :=
  ∀ header ∈ e.told, ∃ x ∈ log, header ∈ x.2.sent

instance {ι : Type} (log : List (ι × NodeEvent)) (e : NodeEvent) : Decidable (Heard log e) :=
  inferInstanceAs (Decidable (∀ header ∈ e.told, ∃ x ∈ log, header ∈ x.2.sent))

/-- Devices that begin with empty stores, and what they reported. -/
abbrev Household {ι : Type} [DecidableEq ι] (deps : ι → EngineDeps) :
    (ι → Pool Node NodeEvent Failure) → List (ι × NodeEvent) → Prop :=
  Parties (fun i => nodeSystem (deps i)) Node.restart Heard fun _ => ⟨.new, []⟩

def createdRevisions {ι : Type} (log : List (ι × NodeEvent)) : List Revision :=
  log.filterMap (·.2.created)

end PassVault
