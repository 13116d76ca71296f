/-!
# The data model of `packages/core`

Ids, revisions, vaults and head events as `types.ts` and `model.ts` declare them, and the
`assert` of `assert.ts`. Ids are branded strings in the source, so each is a structure around a
string. A `Date` is the number of milliseconds it stands for.
-/

namespace PassVault

structure VaultId where
  value : String
deriving DecidableEq, Repr

structure RevisionId where
  value : String
deriving DecidableEq, Repr

structure DeviceId where
  value : String
deriving DecidableEq, Repr

structure PeerId where
  value : String
deriving DecidableEq, Repr

structure ConflictId where
  value : String
deriving DecidableEq, Repr

structure Sha256Hex where
  value : String
deriving DecidableEq, Repr

/-- A `kdbxPath`: an absolute path on a desktop, a content URI on Android. -/
structure FilePath where
  value : String
deriving DecidableEq, Repr

/-- The contents of a `Uint8Array`. -/
abbrev Bytes := List UInt8

inductive ProtocolErrorCode where
  | unsupportedVersion
  | unauthorized
  | unknownVault
  | malformedMessage
  | limitExceeded
  | internal
deriving DecidableEq, Repr

/-- The code of a `SessionError`. -/
inductive SessionErrorCode where
  | protocol (code : ProtocolErrorCode)
  | timeout
  | closed
deriving DecidableEq, Repr

/-- What a failing operation throws. -/
inductive Failure where
  /-- `assert` of `assert.ts`. -/
  | contract (message : String)
  /-- A statement SQLite refuses, with the constraint it names. -/
  | sql (message : String)
  /-- A file system or blob store call that fails. -/
  | io (message : String)
  /-- `new Error(message)`. -/
  | error (message : String)
  | session (code : SessionErrorCode) (message : String)
deriving DecidableEq, Repr

/-- `error.message`. -/
def Failure.message : Failure → String
  | contract message | sql message | io message | error message | session _ message => message

/-- `assert(condition, message)`. -/
def assert (condition : Bool) (message : String) : Except Failure Unit :=
  if condition then .ok () else .error (.contract ("Contract violation: " ++ message))

@[simp] theorem assert_true (message : String) : assert true message = .ok () := rfl

@[simp] theorem assert_false (message : String) :
    assert false message = .error (.contract ("Contract violation: " ++ message)) := rfl

theorem assert_eq_ok {condition : Bool} {message : String} {u : Unit} :
    assert condition message = .ok u ↔ condition = true := by
  cases condition <;> simp

/-- A sequence succeeds when both halves do. -/
theorem bind_eq_ok {φ α β : Type} {x : Except φ α} {f : α → Except φ β} {b : β} :
    x >>= f = .ok b ↔ ∃ a, x = .ok a ∧ f a = .ok b := by
  cases x with
  | error e => simp [bind, Except.bind]
  | ok a => simp [bind, Except.bind]

inductive RevisionOperation where
  | imported
  | received
  | merged
  | restored
  | localChange
deriving DecidableEq, Repr

/-- An immutable point in a vault's history. -/
structure Revision where
  id : RevisionId
  vaultId : VaultId
  hash : Sha256Hex
  sizeBytes : Nat
  createdAt : Nat
  originDeviceId : Option DeviceId
  parentIds : List RevisionId
  operation : RevisionOperation
  message : Option String
deriving DecidableEq, Repr

structure Vault where
  id : VaultId
  name : String
  headRevisionId : Option RevisionId
  kdbxPath : Option FilePath
  createdAt : Nat
deriving DecidableEq, Repr

inductive HeadReason where
  | promote
  | undo
  | restore
  | fastForward
deriving DecidableEq, Repr

structure HeadRevisionEvent where
  vaultId : VaultId
  previousRevisionId : Option RevisionId
  nextRevisionId : RevisionId
  createdAt : Nat
  reason : HeadReason
deriving DecidableEq, Repr

inductive ConflictStatus where
  | open
  | resolved
  | deferred
deriving DecidableEq, Repr

inductive ConflictDecision where
  | keepCurrent
  | switchIncoming
  | tryMerge
  | saveBoth
  | restoreRevision (revisionId : RevisionId)
deriving DecidableEq, Repr

structure Conflict where
  id : ConflictId
  vaultId : VaultId
  currentRevisionId : RevisionId
  incomingRevisionId : RevisionId
  status : ConflictStatus
  createdAt : Nat
  resolvedAt : Option Nat
  decision : Option ConflictDecision
deriving DecidableEq, Repr

end PassVault
