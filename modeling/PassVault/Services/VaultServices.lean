import PassVault.Services.Device

/-!
# The services of the app

The operations of `VaultServices` (`packages/services/src/vaultServices.ts`) that move the head,
keep the file in step with it and keep the conflicts, as calls that interleave at their awaits. What
they write to the activity log, and the snapshots they announce, is left out.
-/

namespace PassVault

open Async

structure ServiceDeps extends EngineDeps where
  platform : Platform

def ConflictChoice.decision : ConflictChoice → ConflictDecision
  | keepCurrent => .keepCurrent
  | switchIncoming => .switchIncoming
  | saveBoth => .saveBoth

namespace VaultServices

variable (deps : ServiceDeps)

/-- Report an event at a point where nothing is touched. -/
def report (e : DeviceEvent) : OnDevice Unit := .act (fun s => (s, [e])) fun _ => .done ()

def requireVaultId : OnDevice VaultId := do
  match ← Async.read fun s : Device => s.vaultId with
  | some vaultId => return vaultId
  | none => throw (.error "No vault is being tracked.")

def activeVaultKey : String := "activeVault"

def setActiveVault (vaultId : VaultId) : OnDevice Unit :=
  .act
    (fun s => ({ s with
      vaultId := some vaultId
      store := s.store.setTables (s.store.tables.saveSetting activeVaultKey vaultId.value) }, []))
    fun _ => .done ()

/-! ## The file on this device -/

def clearHeldBackUpdate (events : List DeviceEvent) : OnDevice Unit :=
  .act (fun s => ({ s with updateHeldBack := false, unlockTimer := false }, events))
    fun _ => .done ()

/-- The update waits for the file to be closed. -/
def holdBack : OnDevice Unit :=
  .act (fun s => ({ s with updateHeldBack := true, unlockTimer := true }, [.heldBack]))
    fun _ => .done ()

/-- The path and the head of the tracked vault, when it has both, and how many head moves there
were. -/
def currentVersion : OnDevice (Option (FilePath × Revision × Nat)) := do
  match ← Async.read fun s : Device => s.vaultId with
  | none => return none
  | some vaultId =>
    let seen ← Async.read fun s : Device => s.moves
    match ← query (·.getVault vaultId) with
    | none => return none
    | some vault =>
      match vault.kdbxPath, vault.headRevisionId with
      | some path, some headRevisionId =>
        match ← query (·.getRevision headRevisionId) with
        | none => return none
        | some head => return some (path, head, seen)
      | _, _ => return none

/-- Does the file have the bytes of this hash? A file that cannot be read has not. -/
def holds (path : FilePath) (hash : Sha256Hex) : OnDevice Bool := do
  match ← (VaultFile.read path).attempt with
  | .ok onDisk =>
    Async.pause
    return deps.sha256 onDisk = hash
  | .error _ => return false

/-- Make the file on disk match the current version. -/
def materializeCurrentVersion : OnDevice Unit := do
  match ← currentVersion with
  | none => return ()
  | some (path, head, seen) =>
    if ← holds deps path head.hash then
      clearHeldBackUpdate [.cleared seen .written]
    else if ← VaultFile.isLocked deps.platform path then
      holdBack
    else
      let bytes ← SyncEngine.bytesOf head.id
      let outcome ← VaultFile.write deps.platform path bytes false
      -- The outcome is not looked at.
      clearHeldBackUpdate [.cleared seen outcome]

/-- The path of the tracked vault. -/
def trackedPath (vaultId : VaultId) : OnDevice (Option FilePath) := do
  return (← query (·.getVault vaultId)).bind (·.kdbxPath)

def applyPendingUpdate : OnDevice WriteBackOutcome := do
  match ← Async.read fun s : Device => s.vaultId with
  | none => return .failed "No password file is set up on this device."
  | some vaultId =>
    match ← trackedPath vaultId with
    | none => return .failed "No password file is set up on this device."
    | some path =>
      if ← VaultFile.isLocked deps.platform path then
        return .refusedLocked
      materializeCurrentVersion deps
      return .written path

/-- What the `try` of `writeBack` does. -/
def writeRevision (path : FilePath) (revisionId : RevisionId) (ignoreLock : Bool) :
    OnDevice WriteBackOutcome := do
  let bytes ← SyncEngine.bytesOf revisionId
  match ← VaultFile.write deps.platform path bytes ignoreLock with
  | .refusedLocked => return .refusedLocked
  | .written => return .written path

def writeBack (revisionId : RevisionId) (ignoreLock : Bool) : OnDevice WriteBackOutcome := do
  match ← Async.read fun s : Device => s.vaultId with
  | none => return .failed "No vault is being tracked."
  | some vaultId =>
    match ← trackedPath vaultId with
    | none => return .failed "This vault is not bound to a file on disk."
    | some path =>
      match ← (writeRevision deps path revisionId ignoreLock).attempt with
      | .ok outcome => return outcome
      | .error error => return .failed error.message

/-- What the `try` of `saveVaultAs` does. -/
def saveHeadAs (vaultId : VaultId) (headRevisionId : RevisionId) (path : FilePath) :
    OnDevice WriteBackOutcome := do
  let bytes ← SyncEngine.bytesOf headRevisionId
  let _ ← VaultFile.write deps.platform path bytes true
  let _ ← SyncEngine.bindVaultToFile vaultId path
  return .written path

def saveVaultAs (path : FilePath) : OnDevice WriteBackOutcome := do
  let vaultId ← requireVaultId
  match (← query (·.getVault vaultId)).bind (·.headRevisionId) with
  | none => return .failed "This vault has no revision to write yet."
  | some headRevisionId =>
    match ← (saveHeadAs deps vaultId headRevisionId path).attempt with
    | .ok outcome => return outcome
    | .error error => return .failed error.message

/-! ## Saves of the user -/

/-- What was read is recorded, and whatever was held back is out of date when it was new. -/
def record (stamp : Stamp) (vaultId : VaultId) (saved : Bytes × Nat) : OnDevice Unit := do
  match ← SyncEngine.recordLocalChange deps.toEngineDeps stamp vaultId saved.1 saved.2 with
  | .recorded _ => clearHeldBackUpdate []
  | .unchanged _ => return ()

def recordFileNow (stamp : Stamp) : OnDevice Unit := do
  match ← Async.read fun s : Device => s.vaultId with
  | none => return ()
  | some vaultId =>
    match ← trackedPath vaultId with
    | none => return ()
    | some path => record deps stamp vaultId (← VaultFile.readSaved path)

/-- `onChange` of the watcher. -/
def onChange (stamp : Stamp) (saved : Bytes × Nat) : OnDevice Unit := do
  match ← Async.read fun s : Device => s.vaultId with
  | none => return ()
  | some vaultId => record deps stamp vaultId saved

/-- `deliver` of the watcher: a file that cannot be read is tried once more. -/
def deliver (stamp : Stamp) (path : FilePath) : OnDevice Unit := do
  match ← (VaultFile.readSaved path).attempt with
  | .ok saved => onChange deps stamp saved
  | .error _ =>
    Async.pause
    match ← (VaultFile.readSaved path).attempt with
    | .ok saved => onChange deps stamp saved
    | .error _ => return ()

/-! ## Head moves and conflicts -/

def promote (now : Nat) (revisionId : RevisionId) : OnDevice Unit := do
  let vaultId ← requireVaultId
  let _ ← SyncEngine.promote now vaultId revisionId
  materializeCurrentVersion deps

def saveConflict (conflict : Conflict) (event : DeviceEvent) : OnDevice Unit :=
  execute (Tables.saveConflict conflict) [event]

/-- Decide conflicts, one after the other. -/
def decideAll (now : Nat) (decision : ConflictDecision) : List Conflict → OnDevice Unit
  | [] => return ()
  | conflict :: rest => do
    let decided ← Async.ofExcept (recordConflictDecision conflict decision now)
    saveConflict decided (.decided decided)
    decideAll now decision rest

def resolveConflict (now : Nat) (conflictId : ConflictId) (choice : ConflictChoice) :
    OnDevice Unit := do
  let vaultId ← requireVaultId
  match (← query (·.listOpenConflicts vaultId)).find? (·.id = conflictId) with
  | none => return ()
  | some conflict =>
    if choice = .switchIncoming then
      let _ ← SyncEngine.promote now vaultId conflict.incomingRevisionId
    decideAll now choice.decision [conflict]
    materializeCurrentVersion deps

/-- `getRevision`, where there may be no id to look for. -/
def revisionOf : Option RevisionId → OnDevice (Option Revision)
  | none => return none
  | some revisionId => query (·.getRevision revisionId)

def openConflictFor (now : Nat) (conflictId : ConflictId) (vaultId : VaultId)
    (incomingRevisionId : RevisionId) : OnDevice ConflictId := do
  let vault ← query (·.getVault vaultId)
  let current ← revisionOf (vault.bind (·.headRevisionId))
  let incoming ← query (·.getRevision incomingRevisionId)
  match vault, current, incoming with
  | some vault, some current, some incoming =>
    let existing ← query (·.listOpenConflicts vaultId)
    match existing.find? fun c =>
        c.currentRevisionId = current.id ∧ c.incomingRevisionId = incoming.id with
    | some already => return already.id
    | none =>
      let conflict ← Async.ofExcept (openConflict conflictId vault current incoming now)
      saveConflict conflict (.opened conflict)
      return conflict.id
  | _, _, _ => throw (.error "cannot record a conflict without both revisions")

/-- What `runSession` does with the result of a session. -/
def finishSession (now : Nat) (conflictId : ConflictId) (vaultId : VaultId)
    (remoteHead : Option RevisionId) (divergence : Divergence) : OnDevice Unit := do
  setActiveVault vaultId
  match remoteHead, divergence with
  | some remoteHead, .diverged _ =>
    let _ ← openConflictFor now conflictId vaultId remoteHead
  | some remoteHead, .remoteAhead =>
    let _ ← SyncEngine.fastForward now vaultId remoteHead 0
    materializeCurrentVersion deps
  | _, _ => return ()

/-- The end of `SyncSession.run`, and what `runSession` does then. -/
def endSession (now : Nat) (conflictId : ConflictId) (session : SessionEnd) : OnDevice Unit := do
  let remoteNodes := summaryNodes session.summary
  Async.ofExcept (validateRemoteGraph remoteNodes)
  match session.remoteHead with
  | some head => SyncEngine.recordPeerHead now session.remoteDeviceId session.vaultId head
  | none => pure ()
  let divergence ← SyncSession.classify session.vaultId (buildGraph remoteNodes) session.remoteHead
  finishSession deps now conflictId session.vaultId session.remoteHead divergence

def merge (stamp : Stamp) (baseRevisionId : RevisionId) (incomingRevisionIds : List RevisionId) :
    OnDevice MergeOutcomeSummary := do
  let vaultId ← requireVaultId
  match ← SyncEngine.merge deps.toEngineDeps stamp vaultId baseRevisionId incomingRevisionIds none with
  | .needsCredentials reason => return .needsCredentials reason
  | .failed reason => return .failed reason
  | .merged revision => return .merged revision.id

/-- Combine a fork and put the result in use, in one action. -/
def combineAndUse (stamp : Stamp) (otherVersionId : RevisionId) :
    OnDevice MergeOutcomeSummary := do
  let vaultId ← requireVaultId
  match (← query (·.getVault vaultId)).bind (·.headRevisionId) with
  | none => return .failed "There is no current version to combine with."
  | some headRevisionId =>
    report (.based headRevisionId otherVersionId)
    match ← merge deps stamp headRevisionId [otherVersionId] with
    | .merged revisionId =>
      let _ ← SyncEngine.promote stamp.now vaultId revisionId
      decideAll stamp.now .tryMerge (← query (·.listOpenConflicts vaultId))
      materializeCurrentVersion deps
      return .merged revisionId
    | outcome => return outcome

end VaultServices

/-! ## Calls

The services run any number of calls at a time. -/

namespace ServiceCall

variable (deps : ServiceDeps)

def finish (p : OnDevice Unit) : OnDevice ServiceAnswer := do
  p
  return .done

def run : ServiceCall → OnDevice ServiceAnswer
  | recordFileNow stamp => finish (VaultServices.recordFileNow deps stamp)
  | deliver stamp path => finish (VaultServices.deliver deps stamp path)
  | promote now revisionId => finish (VaultServices.promote deps now revisionId)
  | resolveConflict now conflictId choice =>
    finish (VaultServices.resolveConflict deps now conflictId choice)
  | combineAndUse stamp otherVersionId => do
    return .merge (← VaultServices.combineAndUse deps stamp otherVersionId)
  | applyPendingUpdate => do
    return .writeBack (← VaultServices.applyPendingUpdate deps)
  | unlockTick => finish (VaultServices.materializeCurrentVersion deps)
  | writeBack revisionId ignoreLock => do
    return .writeBack (← VaultServices.writeBack deps revisionId ignoreLock)
  | saveVaultAs path => do
    return .writeBack (← VaultServices.saveVaultAs deps path)
  | endSession now conflictId session =>
    finish (VaultServices.endSession deps now conflictId session)

/-- Does the call combine versions? -/
def combines : ServiceCall → Bool
  | combineAndUse .. => true
  | _ => false

/-- Does the call write out a version that the user chose? -/
def writesOut : ServiceCall → Bool
  | writeBack .. | saveVaultAs _ => true
  | _ => false

/-- The call is under way, or is no longer. -/
def begun (call : ServiceCall) (s : Device) : Device :=
  { s with
    call := some call
    combining := if call.combines then s.combining + 1 else s.combining }

def ended (call : ServiceCall) (s : Device) : Device :=
  { s with
    call := none
    combining := if call.combines then s.combining - 1 else s.combining }

def start (call : ServiceCall) : OnDevice Unit :=
  .act (fun s => (call.begun s, [.started call])) fun _ => .done ()

def settle (call : ServiceCall) (answer : Except Failure ServiceAnswer) : OnDevice Unit :=
  .act (fun s => (call.ended s, [.settled call answer])) fun _ => .done ()

def program (call : ServiceCall) : OnDevice Unit := do
  call.start
  call.settle (← (call.run deps).attempt)

/-- A session that ends is about the tracked vault, and the timer only fires while it is armed. -/
def possible (s : Device) : ServiceCall → Bool
  | endSession _ _ session => s.vaultId = some session.vaultId
  | unlockTick => s.unlockTimer
  | _ => true

end ServiceCall

/-- What happens to a device: a call, a revision that a peer has sent, or a change of what lies
around the file. -/
inductive ServiceCommand where
  | call (call : ServiceCall)
  | ingestNext (now : Nat) (inbound : InboundHeader) (bytes : Bytes)
  | lock (path : FilePath) (locked : Bool)
  | grant (path : FilePath) (granted : Bool)
  | medium (medium : Medium)
deriving DecidableEq, Repr

/-- The calls that are `admitted` are made whenever someone likes. Revisions are ingested one after
the other. -/
def services (deps : ServiceDeps) (admitted : Device → ServiceCall → Bool) :
    System Device DeviceEvent Failure ServiceCommand
  | .call call, s => if call.possible s && admitted s call then some (call.program deps) else none
  | .ingestNext now inbound bytes, s =>
    if s.session.ingesting then none
    else some (SyncSession.ingestNext 0 deps.toEngineDeps now inbound bytes)
  | .lock path locked, _ => some (Async.modify fun s =>
      { s with locked := fun other => if other = path then locked else s.locked other })
  | .grant path granted, _ => some (Async.modify fun s =>
      { s with granted := fun other => if other = path then granted else s.granted other })
  | .medium medium, _ => some (Async.modify fun s => { s with medium })

end PassVault
