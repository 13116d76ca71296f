import PassVault.Core.Model

/-!
# Lineage and head moves

The constructors of `lineage.ts`, the head moves of `revisions.ts` and the conflict records of
`conflicts.ts` in `packages/core/src`. A byte length cannot be negative here, so the assertion on
`sizeBytes` has no counterpart.
-/

namespace PassVault

structure RevisionSeed where
  id : RevisionId
  vaultId : VaultId
  hash : Sha256Hex
  sizeBytes : Nat
  createdAt : Nat
  message : Option String
deriving DecidableEq, Repr

def RevisionSeed.base (seed : RevisionSeed) (parentIds : List RevisionId)
    (operation : RevisionOperation) (originDeviceId : Option DeviceId) : Revision where
  id := seed.id
  vaultId := seed.vaultId
  hash := seed.hash
  sizeBytes := seed.sizeBytes
  createdAt := seed.createdAt
  originDeviceId := originDeviceId
  parentIds := parentIds
  operation := operation
  message := seed.message

section Base

variable (seed : RevisionSeed) (parentIds : List RevisionId) (operation : RevisionOperation)
  (originDeviceId : Option DeviceId)

@[simp] theorem base_id : (seed.base parentIds operation originDeviceId).id = seed.id := rfl

@[simp] theorem base_vaultId :
    (seed.base parentIds operation originDeviceId).vaultId = seed.vaultId := rfl

@[simp] theorem base_hash : (seed.base parentIds operation originDeviceId).hash = seed.hash := rfl

@[simp] theorem base_parentIds :
    (seed.base parentIds operation originDeviceId).parentIds = parentIds := rfl

@[simp] theorem base_operation :
    (seed.base parentIds operation originDeviceId).operation = operation := rfl

end Base

/-- First revision of a vault. -/
def importedRevision (seed : RevisionSeed) (originDeviceId : Option DeviceId) : Revision :=
  seed.base [] .imported originDeviceId

/-- A change made on this device. -/
def localChangeRevision (seed : RevisionSeed) (currentHeadId : Option RevisionId)
    (originDeviceId : Option DeviceId) : Revision :=
  seed.base currentHeadId.toList .localChange originDeviceId

/-- A revision authored elsewhere, with the parents its sender declares. -/
def receivedRevision (seed : RevisionSeed) (declaredParentIds : List RevisionId)
    (originDeviceId : DeviceId) : Except Failure Revision := do
  assert (seed.id ∉ declaredParentIds) "a revision cannot be its own parent"
  return seed.base declaredParentIds .received (some originDeviceId)

/-- Output of a merge. -/
def mergedRevision (seed : RevisionSeed) (baseRevisionId : RevisionId)
    (inputRevisionIds : List RevisionId) (originDeviceId : Option DeviceId) :
    Except Failure Revision := do
  assert (0 < inputRevisionIds.length) "a merge must have at least one incoming revision"
  let parentIds := baseRevisionId :: inputRevisionIds
  assert parentIds.Nodup "merge parents must be distinct"
  return seed.base parentIds .merged originDeviceId

theorem receivedRevision_ok {seed : RevisionSeed} {declaredParentIds : List RevisionId}
    {originDeviceId : DeviceId} {revision : Revision}
    (h : receivedRevision seed declaredParentIds originDeviceId = .ok revision) :
    seed.id ∉ declaredParentIds ∧
      revision = seed.base declaredParentIds .received (some originDeviceId) := by
  obtain ⟨_, hassert, h⟩ := bind_eq_ok.mp h
  cases h
  exact ⟨by simpa using assert_eq_ok.mp hassert, rfl⟩

theorem mergedRevision_ok {seed : RevisionSeed} {baseRevisionId : RevisionId}
    {inputRevisionIds : List RevisionId} {originDeviceId : Option DeviceId} {revision : Revision}
    (h : mergedRevision seed baseRevisionId inputRevisionIds originDeviceId = .ok revision) :
    revision = seed.base (baseRevisionId :: inputRevisionIds) .merged originDeviceId := by
  obtain ⟨_, _, h⟩ := bind_eq_ok.mp h
  obtain ⟨_, _, h⟩ := bind_eq_ok.mp h
  cases h
  rfl

/-! ## Head moves -/

def moveHead (vault : Vault) (nextRevisionId : RevisionId) (createdAt : Nat)
    (reason : HeadReason) : Vault × HeadRevisionEvent :=
  ({ vault with headRevisionId := some nextRevisionId },
    { vaultId := vault.id, previousRevisionId := vault.headRevisionId, nextRevisionId
      createdAt, reason })

/-- Deliberate user promotion. -/
def promoteRevision (vault : Vault) (nextRevision : Revision) (createdAt : Nat) :
    Except Failure (Vault × HeadRevisionEvent) := do
  assert (vault.id = nextRevision.vaultId) "cannot promote revision from another vault"
  return moveHead vault nextRevision.id createdAt .promote

/-- Advance the head to a revision that already contains it. -/
def fastForwardRevision (vault : Vault) (nextRevision : Revision) (createdAt : Nat) :
    Except Failure (Vault × HeadRevisionEvent) := do
  assert (vault.id = nextRevision.vaultId) "cannot fast-forward to a revision from another vault"
  return moveHead vault nextRevision.id createdAt .fastForward

/-- Both head moves, which differ in their reason and message. -/
theorem moved_ok {vault next : Vault} {revision : Revision} {event : HeadRevisionEvent}
    {createdAt : Nat} {reason : HeadReason} {message : String}
    (h : (do
      assert (vault.id = revision.vaultId) message
      return moveHead vault revision.id createdAt reason : Except Failure _) = .ok (next, event)) :
    vault.id = revision.vaultId ∧ (next, event) = moveHead vault revision.id createdAt reason := by
  obtain ⟨_, hassert, h⟩ := bind_eq_ok.mp h
  exact ⟨by simpa using assert_eq_ok.mp hassert, (Except.ok.inj h).symm⟩

/-! ## Conflicts -/

def openConflict (conflictId : ConflictId) (vault : Vault)
    (currentRevision incomingRevision : Revision) (createdAt : Nat) : Except Failure Conflict := do
  assert (currentRevision.vaultId = vault.id) "current revision must belong to vault"
  assert (incomingRevision.vaultId = vault.id) "incoming revision must belong to vault"
  assert (vault.headRevisionId = some currentRevision.id) "current revision must be the vault head"
  return {
    id := conflictId
    vaultId := vault.id
    currentRevisionId := currentRevision.id
    incomingRevisionId := incomingRevision.id
    status := .open
    createdAt
    resolvedAt := none
    decision := none }

def recordConflictDecision (conflict : Conflict) (decision : ConflictDecision) (at_ : Nat) :
    Except Failure Conflict := do
  assert (conflict.status = .open) "only open conflicts can be decided"
  let status : ConflictStatus :=
    match decision with
    | .keepCurrent | .switchIncoming | .tryMerge | .restoreRevision _ => .resolved
    | .saveBoth => .deferred
  return { conflict with status, resolvedAt := some at_, decision := some decision }

end PassVault
