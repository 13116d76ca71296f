import PassVault.Lib.Runs
import PassVault.Sync.Engine

/-!
# Calls that write the vault row

`recordLocalChange`, `promote`, `fastForward` and `bindVaultToFile` read the row of a vault and
write it back later, as a whole. Any number of them run on one vault, interleaved at their awaits.
-/

namespace PassVault

open Async

inductive RowCall where
  | recordLocalChange (stamp : Stamp) (bytes : Bytes)
  | promote (now : Nat) (revisionId : RevisionId)
  | fastForward (now : Nat) (revisionId : RevisionId)
  | bindVaultToFile (kdbxPath : FilePath)
deriving DecidableEq, Repr

/-- The path that the call binds the vault to. -/
def RowCall.path : RowCall → Option FilePath
  | bindVaultToFile kdbxPath => some kdbxPath
  | _ => none

inductive RowEvent where
  | engine (event : EngineEvent Unit)
  | completed (call : RowCall)
  | threw (call : RowCall)

/-- A store, and what became of the calls. -/
structure RowDevice where
  store : Store
  /-- In the order in which they completed. -/
  completed : List RowCall
  /-- How many head moves are in the row and not yet among the head events. -/
  announced : Nat
  /-- How many calls of `bindVaultToFile` have written the row and not yet completed. -/
  binding : Nat

namespace RowDevice

def of (store : Store) : RowDevice := ⟨store, [], 0, 0⟩

def note : RowEvent → RowDevice → RowDevice
  | .engine (.wroteVault _ (.recorded ..)), s | .engine (.wroteVault _ (.moved ..)), s =>
    { s with announced := s.announced + 1 }
  | .engine (.wroteVault _ .bound), s => { s with binding := s.binding + 1 }
  | .completed call, s =>
    { s with
      completed := s.completed ++ [call]
      binding := if call.path.isSome then s.binding - 1 else s.binding }
  | _, s => s

/-- A head event that is appended is that of a head move. -/
def setStore (store : Store) (s : RowDevice) : RowDevice :=
  { s with
    store
    announced :=
      if s.store.tables.headEvents.length < store.tables.headEvents.length then s.announced - 1
      else s.announced }

instance : EngineState RowDevice Unit RowEvent where
  store s := s.store
  setStore := setStore
  note := note
  store_setStore _ _ := rfl
  event := .engine

end RowDevice

namespace RowCall

variable (deps : EngineDeps) (vaultId : VaultId)

/-- The call, its result dropped. -/
def run : RowCall → Async RowDevice RowEvent Failure Unit
  | recordLocalChange stamp bytes => do
    let _ ← SyncEngine.recordLocalChange deps stamp vaultId bytes ()
  | promote now revisionId => do
    let _ ← SyncEngine.promote now vaultId revisionId
  | fastForward now revisionId => do
    let _ ← SyncEngine.fastForward now vaultId revisionId ()
  | bindVaultToFile kdbxPath => do
    let _ ← SyncEngine.bindVaultToFile vaultId kdbxPath

/-- Report an event at a point where the store is not touched. -/
def report (e : RowEvent) : Async RowDevice RowEvent Failure Unit :=
  .act (changeStore id [e]) fun _ => .done ()

def program (call : RowCall) : Async RowDevice RowEvent Failure Unit := do
  match ← (call.run deps vaultId).attempt with
  | .ok _ => report (.completed call)
  | .error _ => report (.threw call)

end RowCall

/-- A call is made whenever someone likes. -/
def rowCalls (deps : EngineDeps) (vaultId : VaultId) :
    System RowDevice RowEvent Failure RowCall :=
  fun call _ => some (call.program deps vaultId)

/-! ## One call after the other -/

/-- The row of a vault and its head events. -/
structure RowHistory where
  row : Vault
  events : List HeadRevisionEvent
deriving DecidableEq

namespace RowHistory

def move (h : RowHistory) (revisionId : RevisionId) (now : Nat) (reason : HeadReason) :
    RowHistory :=
  let (row, event) := moveHead h.row revisionId now reason
  ⟨row, h.events ++ [event]⟩

def bind (h : RowHistory) (kdbxPath : FilePath) : RowHistory :=
  { h with row := { h.row with kdbxPath := some kdbxPath } }

/-- Each event starts where the one before it led, and the head is where the last one led. -/
structure Chained (h : RowHistory) : Prop where
  chain : h.events.IsChain fun e e' => e'.previousRevisionId = some e.nextRevisionId
  head : ∀ e ∈ h.events.getLast?, h.row.headRevisionId = some e.nextRevisionId

end RowHistory

/-- The hash that a revision is stored with. -/
def Tables.hashOf (t : Tables) (revisionId : RevisionId) : Option Sha256Hex :=
  (t.revisions.find revisionId).map (·.hash)

/-- The head is stored with this hash. -/
def SameAsHead (hashOf : RevisionId → Option Sha256Hex) (head : Option RevisionId)
    (hash : Sha256Hex) : Prop := ∃ id, head = some id ∧ hashOf id = some hash

/-- There is no head, or it is stored with another hash. -/
def DiffersFromHead (hashOf : RevisionId → Option Sha256Hex) (head : Option RevisionId)
    (hash : Sha256Hex) : Prop := ∀ id, head = some id → ∃ other, hashOf id = some other ∧ other ≠ hash

/-- What calls make of a row and its head events when they are made one after the other. -/
inductive Serial (sha256 : Bytes → Sha256Hex) (hashOf : RevisionId → Option Sha256Hex)
    (initial : RowHistory) : List RowCall → RowHistory → Prop where
  | nil : Serial sha256 hashOf initial [] initial
  | unchanged {order : List RowCall} {h : RowHistory} {stamp : Stamp} {bytes : Bytes}
      (hserial : Serial sha256 hashOf initial order h)
      (hsame : SameAsHead hashOf h.row.headRevisionId (sha256 bytes)) :
    Serial sha256 hashOf initial (order ++ [.recordLocalChange stamp bytes]) h
  | recorded {order : List RowCall} {h : RowHistory} {stamp : Stamp} {bytes : Bytes}
      (hserial : Serial sha256 hashOf initial order h)
      (hdiffers : DiffersFromHead hashOf h.row.headRevisionId (sha256 bytes)) :
    Serial sha256 hashOf initial (order ++ [.recordLocalChange stamp bytes])
      (h.move stamp.revisionId stamp.now .promote)
  | promoted {order : List RowCall} {h : RowHistory} {now : Nat} {revisionId : RevisionId}
      (hserial : Serial sha256 hashOf initial order h) :
    Serial sha256 hashOf initial (order ++ [.promote now revisionId])
      (h.move revisionId now .promote)
  | fastForwarded {order : List RowCall} {h : RowHistory} {now : Nat} {revisionId : RevisionId}
      (hserial : Serial sha256 hashOf initial order h) :
    Serial sha256 hashOf initial (order ++ [.fastForward now revisionId])
      (h.move revisionId now .fastForward)
  | bound {order : List RowCall} {h : RowHistory} {kdbxPath : FilePath}
      (hserial : Serial sha256 hashOf initial order h) :
    Serial sha256 hashOf initial (order ++ [.bindVaultToFile kdbxPath]) (h.bind kdbxPath)

/-- The row of the vault and its head events, as they are stored. -/
def Tables.HasHistory (t : Tables) (vaultId : VaultId) (h : RowHistory) : Prop :=
  t.getVault vaultId = some h.row ∧ t.headEvents.filter (·.vaultId = vaultId) = h.events

/-- No update of the row is lost: the history is what the completed calls make of it in some order,
its events are a chain up to the head, and it has the path that was bound last. -/
structure NoLostUpdate (sha256 : Bytes → Sha256Hex) (vaultId : VaultId) (initial : RowHistory)
    (s : RowDevice) (h : RowHistory) : Prop where
  stored : s.store.tables.HasHistory vaultId h
  chained : h.Chained
  bound : ∀ kdbxPath ∈ (s.completed.filterMap RowCall.path).getLast?,
    h.row.kdbxPath = some kdbxPath
  serial : ∃ order, order.Perm s.completed ∧
    Serial sha256 s.store.tables.hashOf initial order h

end PassVault
