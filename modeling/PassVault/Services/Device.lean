import PassVault.Sync.Session

/-!
# A device and its files

The state that `VaultServices` works on, the calls that are made of it, and the two file layers
behind `VaultFileAccess`: `packages/storage-node/src/vaultFile.ts` on a desktop, and
`androidPlatform.ts` with the native plugin on Android. A call of the plugin runs to its end before
the next one starts.
-/

namespace PassVault

open Async

inductive Platform where
  | desktop
  | android
deriving DecidableEq, Repr

/-- How writing a file goes. -/
inductive Medium where
  | sound
  /-- The file cannot be opened for writing. -/
  | unopenable
  /-- Writing is cut short after so many bytes: it fails, or the process dies. -/
  | cutShort (room : Nat)
deriving DecidableEq, Repr

/-- What `files.write` answers. -/
inductive WriteOutcome where
  | written
  | refusedLocked
deriving DecidableEq, Repr

/-- What `applyPendingUpdate`, `writeBack` and `saveVaultAs` answer. -/
inductive WriteBackOutcome where
  | written (path : FilePath)
  | refusedLocked
  | failed (reason : String)
deriving DecidableEq, Repr

inductive MergeOutcomeSummary where
  | merged (revisionId : RevisionId)
  | needsCredentials (reason : String)
  | failed (reason : String)
deriving DecidableEq, Repr

inductive ConflictChoice where
  | keepCurrent
  | switchIncoming
  | saveBoth
deriving DecidableEq, Repr

/-- How a session ends: what it learned of the peer's history, and the peer's head. -/
structure SessionEnd where
  vaultId : VaultId
  remoteDeviceId : DeviceId
  summary : List HistorySummaryEntry
  remoteHead : Option RevisionId
deriving DecidableEq, Repr

/-- A call of the services, with what it takes from the clock and from `ids`. -/
inductive ServiceCall where
  | recordFileNow (stamp : Stamp)
  /-- The watcher has seen that the file changed. -/
  | deliver (stamp : Stamp) (path : FilePath)
  | promote (now : Nat) (revisionId : RevisionId)
  | resolveConflict (now : Nat) (conflictId : ConflictId) (choice : ConflictChoice)
  | combineAndUse (stamp : Stamp) (otherVersionId : RevisionId)
  | applyPendingUpdate
  /-- The timer of `watchForUnlock` fires. -/
  | unlockTick
  | writeBack (revisionId : RevisionId) (ignoreLock : Bool)
  | saveVaultAs (path : FilePath)
  /-- The end of `SyncSession.run`, and what `runSession` does then. -/
  | endSession (now : Nat) (conflictId : ConflictId) (session : SessionEnd)
deriving DecidableEq, Repr

inductive ServiceAnswer where
  | done
  | writeBack (outcome : WriteBackOutcome)
  | merge (outcome : MergeOutcomeSummary)
deriving DecidableEq, Repr

inductive DeviceEvent where
  /-- The record that `recordLocalChange` passes on is how many head moves there were when the
  file was read. -/
  | engine (event : EngineEvent Nat)
  | output (output : Output)
  | started (call : ServiceCall)
  | settled (call : ServiceCall) (answer : Except Failure ServiceAnswer)
  /-- The file is read to be recorded. -/
  | readSaved (path : FilePath)
  | wroteFile (path : FilePath) (bytes : Bytes)
  | writeFailed (path : FilePath)
  /-- `materializeCurrentVersion` is done with the head that it read after `seen` head moves. -/
  | cleared (seen : Nat) (outcome : WriteOutcome)
  /-- `materializeCurrentVersion` found the file locked. -/
  | heldBack
  /-- `combineAndUse` merges the head that it read with another version. -/
  | based (head otherVersionId : RevisionId)
  | opened (conflict : Conflict)
  | decided (conflict : Conflict)

structure Device where
  store : Store
  session : Session
  /-- The vault that is tracked. -/
  vaultId : Option VaultId
  files : FilePath → Option Bytes
  /-- The lock file of KeePassXC lies beside the file. -/
  locked : FilePath → Bool
  /-- The permission that Android granted to the file is still held. -/
  granted : FilePath → Bool
  medium : Medium
  updateHeldBack : Bool
  unlockTimer : Bool
  /-- How often a head was moved, how many calls of `combineAndUse` are under way, and the call
  that was started last, while it is. No program depends on them. -/
  moves : Nat
  combining : Nat
  call : Option ServiceCall

namespace Device

def of (store : Store) (vaultId : VaultId) : Device where
  store := store
  session := .new
  vaultId := some vaultId
  files _ := none
  locked _ := false
  granted _ := true
  medium := .sound
  updateHeldBack := false
  unlockTimer := false
  moves := 0
  combining := 0
  call := none

def note : DeviceEvent → Device → Device
  | .engine (.wroteVault _ (.moved ..)), s | .engine (.wroteVault _ (.recorded ..)), s =>
    { s with moves := s.moves + 1 }
  | _, s => s

instance : SessionState Device Nat DeviceEvent where
  store s := s.store
  setStore store s := { s with store }
  note := note
  store_setStore _ _ := rfl
  event := .engine
  session _ s := s.session
  setSession _ session s := { s with session }
  output _ := .output
  store_setSession _ _ _ := rfl
  session_setSession _ _ _ := rfl

@[simp] theorem store_eq (s : Device) : PassVault.store s = s.store := rfl

@[simp] theorem session_eq (k : Nat) (s : Device) : PassVault.session k s = s.session := rfl

@[simp] theorem setSession_eq (k : Nat) (x : Session) (s : Device) :
    PassVault.setSession k x s = { s with session := x } := rfl

/-- Put the contents of a file in place. -/
def setFile (path : FilePath) (bytes : Bytes) (s : Device) : Device :=
  { s with files := fun other => if other = path then some bytes else s.files other }

end Device

/-- A program of a device. -/
abbrev OnDevice (α : Type) := Async Device DeviceEvent Failure α

namespace VaultFile

def notFound : Failure := .io "ENOENT: no such file or directory"

def notWritten : Failure := .io "ENOSPC: no space left on device"

/-- `files.read`. -/
def read (path : FilePath) : OnDevice Bytes :=
  .act (fun s => (s, [])) fun s => .await (fun _ => true)
    (match s.files path with
    | some bytes => .done bytes
    | none => .fail notFound)

/-- `files.read`, of what is to be recorded; it comes with the number of head moves so far. -/
def readSaved (path : FilePath) : OnDevice (Bytes × Nat) :=
  .act (fun s => (s, [.readSaved path])) fun s => .await (fun _ => true)
    (match s.files path with
    | some bytes => .done (bytes, s.moves)
    | none => .fail notFound)

/-- `files.isLocked`. -/
def isLocked : Platform → FilePath → OnDevice Bool
  | .desktop, path =>
    .act (fun s => (s, [])) fun s => .await (fun _ => true) (.done (s.locked path))
  | .android, _ => .await (fun _ => true) (.done false)

/-- A single access that replaces the file, or fails and leaves it as `after` says. -/
def put (after : Device → Device) (path : FilePath) (bytes : Bytes) : OnDevice WriteOutcome :=
  .act
    (fun s =>
      if s.medium = .sound then (s.setFile path bytes, [.wroteFile path bytes])
      else (after s, [.writeFailed path]))
    fun s => .await (fun _ => true)
      (if s.medium = .sound then .done .written else .fail notWritten)

/-- `writeVaultFileAtomic`: a temporary file that could not be written is not put in place. -/
def writeAtomic (path : FilePath) (bytes : Bytes) (ignoreLock : Bool) : OnDevice WriteOutcome := do
  let locked ← if ignoreLock then pure false else isLocked .desktop path
  if locked then
    return .refusedLocked
  -- The temporary file is opened, written, synced and closed.
  Async.pause
  put id path bytes

/-- The document is emptied when it is opened, and then takes the bytes in pieces; cut short, a
first part is all that it has. -/
def cutShort (path : FilePath) (bytes : Bytes) (s : Device) : Device :=
  match s.medium with
  | .cutShort room => s.setFile path (bytes.take room)
  | _ => s

/-- `androidFiles.write`, with the plugin's `writeVault`. -/
def writeDocument (path : FilePath) (bytes : Bytes) : OnDevice WriteOutcome :=
  .act (fun s => (s, [])) fun s => .await (fun _ => true)
    (if s.granted path then put (cutShort path bytes) path bytes else .done .refusedLocked)

/-- `files.write`. -/
def write : Platform → FilePath → Bytes → Bool → OnDevice WriteOutcome
  | .desktop, path, bytes, ignoreLock => writeAtomic path bytes ignoreLock
  | .android, path, bytes, _ => writeDocument path bytes

end VaultFile

end PassVault
