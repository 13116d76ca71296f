import PassVault.Lib.Traces
import PassVault.Services.VaultServices
import PassVault.Sync.Growth

/-!
# What the calls do, access by access

Where each call is, and what each of its accesses does to the device. Everything that is claimed of
calls that overlap is derived from these steps.
-/

namespace PassVault

open Async

/-- Two versions and the revision that they were merged to. -/
structure Combination where
  base : RevisionId
  other : RevisionId
  result : RevisionId
deriving DecidableEq, Repr

/-- What is left to do after a head move. -/
inductive Todo where
  /-- Forget an update that was held back: the user saved something new. -/
  | clear
  | writeBack
  | decide (conflict : Conflict)
  | decideOpen

/-- Where a program is. -/
inductive Stage where
  /-- No call has begun; a revision that a peer has sent is stored from here. -/
  | new
  | calm
  /-- The file was read, after so many head moves. -/
  | saved (bytes : Bytes) (seen : Nat)
  /-- The row was read, to compare its head with what was saved. -/
  | compared (bytes : Bytes) (vault : Vault)
  /-- What was saved is stored, to become the head. -/
  | recorded (revisionId : RevisionId)
  | found (conflict : Conflict)
  | based (head other : RevisionId)
  | merging
  | owing (todo : Todo)
  | deciding (conflicts : List Conflict)
  | heads (head : RevisionId)
  | judged (head remoteHead : RevisionId) (summary : List HistorySummaryEntry)
  /-- `materializeCurrentVersion` read the row, after so many head moves; then the file. -/
  | looked (path : FilePath) (head : RevisionId) (seen : Nat)
  | read (path : FilePath) (head : RevisionId) (seen : Nat) (onDisk : Option Bytes)
  | wrote (path : FilePath) (head : RevisionId) (seen : Nat)
  /-- `materializeCurrentVersion` is done, after so many head moves. -/
  | cleared (moves : Nat)
  | held
  /-- There was no file to write, or nothing to write to it. -/
  | unbound
  | finished
  /-- The file could not be written. -/
  | failed
  | settled

namespace ServiceCall

/-- The conflict that the user decides. -/
def resolves : ServiceCall → Option ConflictId
  | resolveConflict _ conflictId _ => some conflictId
  | _ => none

/-- The call decides no conflict. -/
def plain : ServiceCall → Bool
  | combineAndUse .. | resolveConflict .. => false
  | _ => true

theorem combines_of_plain {call : ServiceCall} (h : call.plain = true) : call.combines = false := by
  cases call <;> first | rfl | cases h

theorem resolves_of_plain {call : ServiceCall} (h : call.plain = true) : call.resolves = none := by
  cases call <;> first | rfl | cases h

theorem combines_of_resolves {call : ServiceCall} {conflictId : ConflictId}
    (h : call.resolves = some conflictId) : call.combines = false := by
  cases call <;> first | rfl | cases h

end ServiceCall

namespace Stage

/-- The call has done nothing yet that something must follow. -/
def mayEnd : Stage → Prop
  | calm | saved .. | compared .. | found _ | based .. | merging | heads _ | judged .. | cleared _
  | held | unbound | finished | failed => True
  | _ => False

/-- The call is about to bring the file up to date. -/
inductive Looks : Stage → Prop where
  | calm : Looks calm
  | owing : Looks (owing .writeBack)
  | deciding : Looks (deciding [])

/-- The call moves the head to the revision, and then has more to do. -/
inductive Leads (call : ServiceCall) :
    Option Combination → Stage → RevisionId → Todo → Prop where
  | calm {c : Option Combination} {revisionId : RevisionId} (hcall : call.plain = true) :
    Leads call c calm revisionId .writeBack
  | found {c : Option Combination} {conflict : Conflict} :
    Leads call c (found conflict) conflict.incomingRevisionId (.decide conflict)
  | merging {c : Combination} : Leads call (some c) merging c.result .decideOpen
  | recorded {c : Option Combination} {revisionId : RevisionId} :
    Leads call c (recorded revisionId) revisionId .clear

/-- The call decides the conflict, and goes on. -/
inductive Decides : Stage → Conflict → Stage → Prop where
  | found {conflict : Conflict} : Decides (found conflict) conflict (owing .writeBack)
  | owing {conflict : Conflict} :
    Decides (owing (.decide conflict)) conflict (owing .writeBack)
  | deciding {conflict : Conflict} {rest : List Conflict} :
    Decides (deciding (conflict :: rest)) conflict (deciding rest)

end Stage

namespace DeviceEvent

/-- Events that concern no file, no head and no conflict. -/
def quiet : DeviceEvent → Prop
  | engine (.called ..) | engine (.unchanged ..) | engine (.advancing ..) | output _ => True
  | _ => False

/-- The call that has begun. -/
def begins : DeviceEvent → Option ServiceCall
  | started call => some call
  | _ => none

/-- The call has settled. -/
def settles (call : ServiceCall) : DeviceEvent → Bool
  | settled call' _ => call' = call
  | _ => false

theorem settles_iff {call : ServiceCall} {e : DeviceEvent} :
    e.settles call = true ↔ ∃ answer, e = .settled call answer := by
  cases e <;> simp [settles]

/-- An id generated on this device is new when it is stored. -/
def Fresh (s : Device) : DeviceEvent → Prop
  | engine (.saved revision) =>
    revision.operation ≠ .received → s.store.tables.hasRevision revision.id = false
  | _ => True

instance (s : Device) : DecidablePred (Fresh s)
  | engine (.saved _) => inferInstanceAs (Decidable (_ → _))
  | engine (.wroteVault ..) | engine (.called ..) | engine (.unchanged ..)
  | engine (.advancing ..) | output _ | started _ | settled .. | readSaved _ | wroteFile ..
  | writeFailed _ | cleared .. | heldBack | based .. | opened _ | decided _ => isTrue trivial

theorem Fresh.freshIds {s : Device} {e : DeviceEvent} (h : e.Fresh s) :
    SyncEngine.FreshIds s e := by
  rintro revision rfl
  exact h

end DeviceEvent

/-- A row is written because its head moves. -/
def VaultWrite.movesHead {ω : Type} : VaultWrite ω → Prop
  | recorded .. | moved .. => True
  | _ => False

/-- Vaults, revisions and conflicts stay as they are. -/
structure Store.Quiet (sha256 : Bytes → Sha256Hex) (s t : Store) : Prop where
  grows : s.Grows t
  keeps : s.WellFormed sha256 → t.WellFormed sha256
  vaults : t.tables.vaults = s.tables.vaults
  revisions : t.tables.revisions = s.tables.revisions
  parents : t.tables.revisionParents = s.tables.revisionParents
  conflicts : t.tables.conflicts = s.tables.conflicts

/-- Only what no call cares for has changed. -/
structure Device.Idle (sha256 : Bytes → Sha256Hex) (s t : Device) : Prop where
  same : t = { s with
    store := t.store, session := t.session, locked := t.locked, granted := t.granted
    medium := t.medium }
  store : s.store.Quiet sha256 t.store

/-- A conflict with a decision. -/
structure Conflict.DecidedAs (conflict decided : Conflict) : Prop where
  id : decided.id = conflict.id
  vaultId : decided.vaultId = conflict.vaultId
  current : decided.currentRevisionId = conflict.currentRevisionId
  incoming : decided.incomingRevisionId = conflict.incomingRevisionId
  status : decided.status ≠ .open

/-- A revision is stored for the vault, with its bytes. -/
structure Store.Saves (s : Store) (vaultId : VaultId) (revision : Revision) (tables : Tables) :
    Prop where
  vaultId : revision.vaultId = vaultId
  fresh : s.tables.hasRevision revision.id = false
  blob : ∃ bytes, s.getBlob revision.hash = some bytes
  save : Tables.saveRevision revision s.tables = .ok tables

/-- The verdict of a session about two heads, over a summary of the peer's history. -/
def Tables.verdict (t : Tables) (vaultId : VaultId) (summary : List HistorySummaryEntry)
    (head remoteHead : RevisionId) : Divergence :=
  classifyDivergence (unionGraphs (buildGraph (summaryNodes (t.historySummary vaultId)))
    (buildGraph (summaryNodes summary))) head remoteHead

/-- The vault that the calls are about, and the file that it is bound to. -/
structure Tracked where
  vaultId : VaultId
  kdbxPath : Option FilePath

/-- The accesses that concern the file. -/
inductive FileSteps (sha256 : Bytes → Sha256Hex) (v : Tracked) (call : ServiceCall) :
    Stage → Device → List DeviceEvent → Device → Stage → Prop where
  | readsSaved {s : Device} {path : FilePath} (hcall : call.plain = true) :
    FileSteps sha256 v call .calm s [.readSaved path] s
      (match s.files path with
      | some bytes => .saved bytes s.moves
      | none => .calm)
  | looks {g : Stage} {s : Device} {vault : Vault} {path : FilePath} {head : RevisionId}
      (hlooks : g.Looks) (hrow : s.store.tables.getVault v.vaultId = some vault)
      (hpath : v.kdbxPath = some path) (hhead : vault.headRevisionId = some head) :
    FileSteps sha256 v call g s [] s (.looked path head s.moves)
  | unbound {g : Stage} {s : Device} {vault : Vault} (hlooks : g.Looks)
      (hrow : s.store.tables.getVault v.vaultId = some vault)
      (hnone : v.kdbxPath = none ∨ vault.headRevisionId = none) :
    FileSteps sha256 v call g s [] s .unbound
  | reads {s : Device} {path : FilePath} {head : RevisionId} {seen : Nat} :
    FileSteps sha256 v call (.looked path head seen) s [] s (.read path head seen (s.files path))
  | agrees {s : Device} {path : FilePath} {head : RevisionId} {seen : Nat} {bytes : Bytes}
      {row : RevisionRow} (hrow : s.store.tables.revisions.find head = some row)
      (hhash : sha256 bytes = row.hash) :
    FileSteps sha256 v call (.read path head seen (some bytes)) s [.cleared seen .written]
      { s with updateHeldBack := false, unlockTimer := false } (.cleared s.moves)
  | holdsBack {s : Device} {path : FilePath} {head : RevisionId} {seen : Nat}
      {onDisk : Option Bytes} :
    FileSteps sha256 v call (.read path head seen onDisk) s [.heldBack]
      { s with updateHeldBack := true, unlockTimer := true } .held
  | writes {s : Device} {path : FilePath} {head : RevisionId} {seen : Nat}
      {onDisk : Option Bytes} {bytes : Bytes} {row : RevisionRow}
      (hrow : s.store.tables.revisions.find head = some row) (hhash : sha256 bytes = row.hash) :
    FileSteps sha256 v call (.read path head seen onDisk) s [.wroteFile path bytes]
      (s.setFile path bytes) (.wrote path head seen)
  | fails {s : Device} {path : FilePath} {head : RevisionId} {seen : Nat}
      {onDisk : Option Bytes} (files : FilePath → Option Bytes) :
    FileSteps sha256 v call (.read path head seen onDisk) s [.writeFailed path]
      { s with files } .failed
  | refused {s : Device} {path : FilePath} {head : RevisionId} {seen : Nat}
      {onDisk : Option Bytes} :
    FileSteps sha256 v call (.read path head seen onDisk) s [.cleared seen .refusedLocked]
      { s with updateHeldBack := false, unlockTimer := false } (.cleared s.moves)
  | clears {s : Device} {path : FilePath} {head : RevisionId} {seen : Nat} :
    FileSteps sha256 v call (.wrote path head seen) s [.cleared seen .written]
      { s with updateHeldBack := false, unlockTimer := false } (.cleared s.moves)
  | forgets {s : Device} :
    FileSteps sha256 v call (.owing .clear) s []
      { s with updateHeldBack := false, unlockTimer := false } .finished

/-- The accesses that concern the row of the vault, revisions and conflicts. -/
inductive StoreSteps (sha256 : Bytes → Sha256Hex) (v : Tracked) (call : ServiceCall)
    (c : Option Combination) :
    Stage → Device → List DeviceEvent → Device → Stage → Prop where
  | compares {s : Device} {bytes : Bytes} {seen : Nat} {vault : Vault}
      (hrow : s.store.tables.getVault v.vaultId = some vault) :
    StoreSteps sha256 v call c (.saved bytes seen) s [.engine (.called v.vaultId seen)] s
      (.compared bytes vault)
  | records {s : Device} {bytes : Bytes} {vault : Vault} {revision : Revision} {tables : Tables}
      (hdiffers : ∀ head, vault.headRevisionId = some head → ∃ row,
        s.store.tables.revisions.find head = some row ∧ row.hash ≠ sha256 bytes)
      (hparents : revision.parentIds = vault.headRevisionId.toList)
      (hsaves : s.store.Saves v.vaultId revision tables) :
    StoreSteps sha256 v call c (.compared bytes vault) s [.engine (.saved revision)]
      { s with store := s.store.setTables tables } (.recorded revision.id)
  | moves {g : Stage} {s : Device} {vault : Vault} {revisionId : RevisionId} {todo : Todo}
      {why : VaultWrite Nat} (hleads : Stage.Leads call c g revisionId todo)
      (hid : vault.id = v.vaultId) (hpath : vault.kdbxPath = v.kdbxPath)
      (hhead : vault.headRevisionId = some revisionId)
      (hof : s.store.tables.OfVault v.vaultId revisionId)
      (hwhy : why.movesHead ∧ ((∃ revision origin, why = .recorded revision origin) ↔
        todo = .clear)) :
    StoreSteps sha256 v call c g s [.engine (.wroteVault vault why)]
      { s with
        store := s.store.setTables (s.store.tables.saveVault vault), moves := s.moves + 1 }
      (.owing todo)
  | finds {s : Device} {conflict : Conflict}
      (hresolves : call.resolves = some conflict.id)
      (hmem : conflict ∈ s.store.tables.listOpenConflicts v.vaultId) :
    StoreSteps sha256 v call c .calm s [] s (.found conflict)
  | bases {s : Device} {head other : RevisionId} (hcall : call.combines = true) :
    StoreSteps sha256 v call c .calm s [.based head other] s (.based head other)
  | lists {s : Device} :
    StoreSteps sha256 v call c (.owing .decideOpen) s [] s
      (.deciding (s.store.tables.listOpenConflicts v.vaultId))
  | decides {g g' : Stage} {s : Device} {conflict decided : Conflict} {tables : Tables}
      (hdecides : Stage.Decides g conflict g') (hdecided : conflict.DecidedAs decided)
      (hsave : Tables.saveConflict decided s.store.tables = .ok tables) :
    StoreSteps sha256 v call c g s [.decided decided]
      { s with store := s.store.setTables tables } g'
  | seesHead {s : Device} {vault : Vault} {head : RevisionId} (hcall : call.combines = false)
      (hrow : s.store.tables.getVault v.vaultId = some vault)
      (hhead : vault.headRevisionId = some head) :
    StoreSteps sha256 v call c .calm s [] s (.heads head)
  | judges {s : Device} {head remoteHead : RevisionId} {now : Nat} {conflictId : ConflictId}
      {session : SessionEnd} (hcall : call = .endSession now conflictId session) :
    StoreSteps sha256 v call c (.heads head) s [] s
      (match s.store.tables.verdict v.vaultId session.summary head remoteHead with
      | .diverged _ => .judged head remoteHead session.summary
      | _ => .calm)
  | opens {s : Device} {head : RevisionId} {summary : List HistorySummaryEntry}
      {conflict : Conflict} {tables : Tables} (hvault : conflict.vaultId = v.vaultId)
      (hstatus : conflict.status = .open)
      (hstored : s.store.tables.hasRevision conflict.incomingRevisionId = true)
      (hsave : Tables.saveConflict conflict s.store.tables = .ok tables) :
    StoreSteps sha256 v call c (.judged head conflict.incomingRevisionId summary) s
      [.opened conflict] { s with store := s.store.setTables tables } .finished

/-- Where a program is, for which call, and what it has combined. -/
structure Place where
  stage : Stage
  call : Option ServiceCall
  combination : Option Combination

/-- A program that has done nothing yet. -/
def Place.first : Place := ⟨.new, none, none⟩

/-- The accesses of all calls. -/
inductive ServiceSteps (sha256 : Bytes → Sha256Hex) (v : Tracked) :
    Place → Device → List DeviceEvent → Device → Place → Prop where
  | idle {g : Place} {s t : Device} {events : List DeviceEvent} (hidle : s.Idle sha256 t)
      (hquiet : ∀ e ∈ events, e.quiet) : ServiceSteps sha256 v g s events t g
  | receives {s : Device} {revision : Revision} {tables : Tables}
      (hblob : ∃ bytes, s.store.getBlob revision.hash = some bytes)
      (hsave : Tables.saveRevision revision s.store.tables = .ok tables) :
    ServiceSteps sha256 v .first s [.engine (.saved revision)]
      { s with store := s.store.setTables tables } .first
  | starts {s : Device} {call : ServiceCall} :
    ServiceSteps sha256 v .first s [.started call] (call.begun s) ⟨.calm, some call, none⟩
  | settles {g : Stage} {call : ServiceCall} {c : Option Combination} {s : Device}
      {answer : Except Failure ServiceAnswer} (hend : g.mayEnd)
      (hmerged : g ≠ .merging → g ≠ .failed → ∀ x, c = some x →
        answer = .ok (.merge (.merged x.result)))
      (hwritten : ∀ path, answer = .ok (.writeBack (.written path)) →
        g = .held ∨ g = .unbound ∨ g = .cleared s.moves) :
    ServiceSteps sha256 v ⟨g, some call, c⟩ s [.settled call answer] (call.ended s)
      ⟨.settled, some call, c⟩
  | file {g g' : Stage} {call : ServiceCall} {c : Option Combination} {s t : Device}
      {events : List DeviceEvent} (h : FileSteps sha256 v call g s events t g') :
    ServiceSteps sha256 v ⟨g, some call, c⟩ s events t ⟨g', some call, c⟩
  | store {g g' : Stage} {call : ServiceCall} {c : Option Combination} {s t : Device}
      {events : List DeviceEvent} (h : StoreSteps sha256 v call c g s events t g') :
    ServiceSteps sha256 v ⟨g, some call, c⟩ s events t ⟨g', some call, c⟩
  | merges {s : Device} {call : ServiceCall} {head other : RevisionId} {revision : Revision}
      {tables : Tables} (hparents : revision.parentIds = [head, other])
      (hsaves : s.store.Saves v.vaultId revision tables) :
    ServiceSteps sha256 v ⟨.based head other, some call, none⟩ s [.engine (.saved revision)]
      { s with store := s.store.setTables tables }
      ⟨.merging, some call, some ⟨head, other, revision.id⟩⟩

/-! ## What all steps keep -/

/-- The store is well formed, and the vault is tracked and bound to the file. -/
structure Device.Sound (sha256 : Bytes → Sha256Hex) (v : Tracked) (s : Device) : Prop where
  wellFormed : s.store.WellFormed sha256
  tracked : s.vaultId = some v.vaultId
  bound : ∃ vault, s.store.tables.getVault v.vaultId = some vault ∧ vault.kdbxPath = v.kdbxPath

/-- Nothing stored is lost. -/
structure Device.Onward (s t : Device) : Prop where
  grows : s.store.Grows t.store
  moves : s.moves ≤ t.moves

/-- The calls of a device that tracks the vault, when the events are as `cond` says. -/
def serviceDiscipline (sha256 : Bytes → Sha256Hex) (v : Tracked)
    (cond : Device → DeviceEvent → Prop) : Discipline Place Device DeviceEvent where
  inv := Device.Sound sha256 v
  rely := Device.Onward
  cond := cond
  next := ServiceSteps sha256 v

theorem Device.Onward.refl (s : Device) : s.Onward s := ⟨.refl _, Nat.le_refl _⟩

theorem Device.Onward.trans {s t u : Device} (h : s.Onward t) (h' : t.Onward u) : s.Onward u :=
  ⟨h.grows.trans h'.grows, h.moves.trans h'.moves⟩

theorem Store.grows_saveConflict {s : Store} {conflict : Conflict} {tables : Tables}
    (hsave : Tables.saveConflict conflict s.tables = .ok tables) : s.Grows (s.setTables tables) :=
  Store.grows_setTables (Tables.grows_saveConflict hsave)

theorem Tables.saveConflict_same {t tables : Tables} {conflict : Conflict}
    (hsave : Tables.saveConflict conflict t = .ok tables) :
    tables.vaults = t.vaults ∧ tables.revisions = t.revisions ∧
      tables.revisionParents = t.revisionParents := by
  rw [Tables.saveConflict] at hsave
  split at hsave <;> cases hsave
  exact ⟨rfl, rfl, rfl⟩

theorem Store.WellFormed.saveConflict {sha256 : Bytes → Sha256Hex} {s : Store}
    (h : s.WellFormed sha256) {conflict : Conflict} {tables : Tables}
    (hsave : Tables.saveConflict conflict s.tables = .ok tables) :
    (s.setTables tables).WellFormed sha256 := by
  obtain ⟨hvaults, hrevisions, hparents⟩ := Tables.saveConflict_same hsave
  exact h.other hvaults hrevisions hparents

theorem Tables.vaults_saveRevision {t tables : Tables} {revision : Revision}
    (hsave : Tables.saveRevision revision t = .ok tables) : tables.vaults = t.vaults := by
  obtain ⟨-, -, rfl⟩ := Tables.saveRevision_ok hsave
  rfl

/-- A row that is saved is read back with its head and its path. -/
theorem Tables.getVault_saveVault (t : Tables) (vault : Vault) :
    ∃ row, (t.saveVault vault).getVault vault.id = some row ∧
      row.headRevisionId = vault.headRevisionId ∧ row.kdbxPath = vault.kdbxPath := by
  rw [Tables.getVault, Tables.saveVault, Table.find_upsert, if_pos rfl]
  cases t.vaults.find vault.id with
  | none => exact ⟨_, rfl, rfl, rfl⟩
  | some row => exact ⟨_, rfl, rfl, rfl⟩

theorem Tables.mem_listOpenConflicts {t : Tables} {vaultId : VaultId} {conflict : Conflict} :
    conflict ∈ t.listOpenConflicts vaultId ↔
      conflict ∈ t.conflicts.rows ∧ conflict.vaultId = vaultId ∧ conflict.status = .open := by
  rw [Tables.listOpenConflicts, List.mem_mergeSort, List.mem_filter]
  simp

section Keeps

variable {sha256 : Bytes → Sha256Hex} {v : Tracked} {s t : Device}

/-- A device that differs in its store, whose vaults are the same. -/
theorem Device.Sound.setStore (h : s.Sound sha256 v) {store : Store}
    (hkeeps : s.store.WellFormed sha256 → store.WellFormed sha256) (hgrows : s.store.Grows store)
    (hvaults : store.tables.vaults = s.store.tables.vaults) :
    ({ s with store } : Device).Sound sha256 v ∧ s.Onward { s with store } := by
  refine ⟨⟨hkeeps h.wellFormed, h.tracked, ?_⟩, hgrows, Nat.le_refl _⟩
  obtain ⟨vault, hrow, hpath⟩ := h.bound
  exact ⟨vault, (congrArg (·.find v.vaultId) hvaults).trans hrow, hpath⟩

theorem FileSteps.keeps {call : ServiceCall} {g g' : Stage} {events : List DeviceEvent}
    (h : FileSteps sha256 v call g s events t g') :
    t.store = s.store ∧ t.vaultId = s.vaultId ∧ t.moves = s.moves := by
  cases h <;> exact ⟨rfl, rfl, rfl⟩

theorem StoreSteps.keeps {call : ServiceCall} {c : Option Combination} {g g' : Stage}
    {events : List DeviceEvent} (h : StoreSteps sha256 v call c g s events t g')
    (hs : s.Sound sha256 v) : t.Sound sha256 v ∧ s.Onward t := by
  cases h with
  | compares | finds | bases | lists | seesHead | judges => exact ⟨hs, .refl s⟩
  | records _ _ hsaves =>
    exact hs.setStore (fun hwf => hwf.saveRevision hsaves.blob hsaves.save)
      (Store.grows_setTables (Tables.grows_saveRevision hsaves.save))
      (Tables.vaults_saveRevision hsaves.save)
  | moves hleads hid hpath hhead hof hwhy =>
    refine ⟨⟨hs.wellFormed.saveVault fun head hh => ?_, hs.tracked, ?_⟩,
      Store.grows_setTables (Tables.grows_saveVault _ _), Nat.le_succ _⟩
    · rw [hhead] at hh
      cases hh
      exact hid ▸ hof
    · obtain ⟨row, hrow, -, hrowPath⟩ := Tables.getVault_saveVault s.store.tables _
      exact ⟨row, hid ▸ hrow, hrowPath.trans hpath⟩
  | decides _ _ hsave | opens _ _ _ hsave =>
    exact hs.setStore (fun hwf => hwf.saveConflict hsave) (Store.grows_saveConflict hsave)
      (Tables.saveConflict_same hsave).1

theorem ServiceSteps.keeps {g g' : Place} {events : List DeviceEvent}
    (h : ServiceSteps sha256 v g s events t g') (hs : s.Sound sha256 v) :
    t.Sound sha256 v ∧ s.Onward t := by
  cases h with
  | idle hidle =>
    have hvault : t.vaultId = s.vaultId := by rw [hidle.same]
    have hmoves : t.moves = s.moves := by rw [hidle.same]
    obtain ⟨vault, hrow, hpath⟩ := hs.bound
    refine ⟨⟨hidle.store.keeps hs.wellFormed, hvault.trans hs.tracked, vault, ?_, hpath⟩,
      hidle.store.grows, hmoves.ge⟩
    exact (congrArg (·.find v.vaultId) hidle.store.vaults).trans hrow
  | starts | settles => exact ⟨⟨hs.wellFormed, hs.tracked, hs.bound⟩, .refl _, Nat.le_refl _⟩
  | file h =>
    obtain ⟨hstore, hvault, hmoves⟩ := h.keeps
    exact ⟨⟨hstore ▸ hs.wellFormed, hvault.trans hs.tracked, hstore ▸ hs.bound⟩, hstore ▸ .refl _,
      hmoves.ge⟩
  | store h => exact h.keeps hs
  | receives hblob hsave =>
    exact hs.setStore (fun hwf => hwf.saveRevision hblob hsave)
      (Store.grows_setTables (Tables.grows_saveRevision hsave)) (Tables.vaults_saveRevision hsave)
  | merges _ hsaves =>
    exact hs.setStore (fun hwf => hwf.saveRevision hsaves.blob hsaves.save)
      (Store.grows_setTables (Tables.grows_saveRevision hsaves.save))
      (Tables.vaults_saveRevision hsaves.save)

theorem serviceDiscipline_lawful (cond : Device → DeviceEvent → Prop) :
    (serviceDiscipline sha256 v cond).Lawful where
  refl := .refl
  trans _ _ _ := .trans
  step _ _ _ _ _ h hs _ := h.keeps hs

end Keeps

/-! ## Calls that have begun and settled -/

section Settling

variable {sha256 : Bytes → Sha256Hex} {v : Tracked} {s t : Device} {g g' : Place}
  {events : List DeviceEvent}

/-- A call that has settled does nothing more. -/
theorem ServiceSteps.of_settled (h : ServiceSteps sha256 v g s events t g')
    (hg : g.stage = .settled) : g' = g := by
  cases h with
  | idle => rfl
  | receives | starts | merges => cases hg
  | settles hend =>
    cases hg
    exact hend.elim
  | file h =>
    cases hg
    cases h with
    | looks hlooks | unbound hlooks => cases hlooks
  | store h =>
    cases hg
    cases h with
    | moves hleads => cases hleads
    | decides hdecides => cases hdecides

theorem ServiceSteps.call (h : ServiceSteps sha256 v g s events t g') :
    g'.call = g.call ∨ ∃ call, g'.call = some call ∧ events = [.started call] := by
  cases h with
  | starts => exact Or.inr ⟨_, rfl, rfl⟩
  | _ => exact Or.inl rfl

theorem ServiceSteps.keeps_call (h : ServiceSteps sha256 v g s events t g') {call : ServiceCall}
    (hcall : g.call = some call) : g'.call = some call := by
  cases h with
  | starts | receives => cases hcall
  | _ => exact hcall

theorem ServiceSteps.started (h : ServiceSteps sha256 v g s events t g') {call : ServiceCall}
    (he : .started call ∈ events) : g'.call = some call := by
  cases h with
  | idle _ hquiet => exact (hquiet _ he).elim
  | receives | settles | merges => simp at he
  | starts =>
    cases List.mem_singleton.mp he
    rfl
  | file h => cases h <;> simp at he
  | store h => cases h <;> simp at he

theorem ServiceSteps.settled (h : ServiceSteps sha256 v g s events t g') {call : ServiceCall}
    {answer : Except Failure ServiceAnswer} (he : .settled call answer ∈ events) :
    g'.stage = .settled ∧ g'.call = some call := by
  cases h with
  | idle _ hquiet => exact (hquiet _ he).elim
  | receives | starts | merges => simp at he
  | settles =>
    cases List.mem_singleton.mp he
    exact ⟨rfl, rfl⟩
  | file h => cases h <;> simp at he
  | store h => cases h <;> simp at he

/-- The log tells which calls have begun and which have settled. -/
structure Settling (places : Nat → Option Place) (log : List (Record Device DeviceEvent)) :
    Prop where
  fresh : ∀ (i : Nat) g, places i = some g → g.call = none → g.stage = .new
  started : ∀ (i : Nat) g call, places i = some g → g.call = some call →
    ∃ x ∈ log, x.task = i ∧ x.event = .started call
  begun : ∀ x ∈ log, ∀ call, x.event = .started call →
    ∃ g, places x.task = some g ∧ g.call = some call
  settled : ∀ x ∈ log, ∀ call answer, x.event = .settled call answer →
    ∃ g, places x.task = some g ∧ g.stage = .settled ∧ g.call = some call

theorem Settling.start {places : Nat → Option Place} {log : List (Record Device DeviceEvent)}
    (h : Settling places log) {i : Nat} (hi : places i = none) :
    Settling (Function.update places i (some .first)) log := by
  have hother : ∀ {j : Nat} {k : Place}, places j = some k →
      Function.update places i (some .first) j = some k := by
    intro j k hj
    rw [Function.update_of_ne, hj]
    rintro rfl
    rw [hi] at hj
    cases hj
  refine ⟨?_, fun j k call hj => ?_, fun x hx call hevent => ?_,
    fun x hx call answer hevent => ?_⟩
  · refine forall_update ?_ fun j k _ hj => ?_
    · intro hnone
      rfl
    · intro hnone
      exact h.fresh j k hj hnone
  · revert j k
    refine forall_update ?_ fun j k _ hj => ?_
    · intro hk
      cases hk
    · intro hk
      exact h.started j k call hj hk
  · exact (h.begun x hx call hevent).imp fun _ => And.imp_left hother
  · exact (h.settled x hx call answer hevent).imp fun _ => And.imp_left hother

theorem Settling.step {places : Nat → Option Place} {i : Nat}
    {log : List (Record Device DeviceEvent)} (h : Settling places log) (hi : places i = some g)
    (hstep : ServiceSteps sha256 v g s events t g') :
    Settling (Function.update places i (some g')) (log ++ events.map (⟨i, s, ·⟩)) := by
  refine ⟨?_, fun j k call hj => ?_, fun x hx call hevent => ?_,
    fun x hx call answer hevent => ?_⟩
  · refine forall_update ?_ fun j k _ hj => ?_
    · intro hnone
      rcases hstep.call with hcall | ⟨call, hcall, -⟩
      · have hnew := h.fresh _ _ hi (hcall ▸ hnone)
        cases hstep with
        | starts | settles | file | store | merges => cases hnone
        | idle | receives => exact hnew
      · rw [hcall] at hnone
        cases hnone
    · intro hnone
      exact h.fresh j k hj hnone
  · revert j k
    refine forall_update ?_ fun j k _ hj => ?_
    · intro hk
      rcases hstep.call with hcall | ⟨call', hcall, rfl⟩
      · obtain ⟨x, hx, hx'⟩ := h.started _ _ call hi (hcall ▸ hk)
        exact ⟨x, List.mem_append_left _ hx, hx'⟩
      · cases hcall.symm.trans hk
        exact ⟨_, List.mem_append_right _ (List.mem_singleton.mpr rfl), rfl, rfl⟩
    · intro hk
      obtain ⟨x, hx, hx'⟩ := h.started j k call hj hk
      exact ⟨x, List.mem_append_left _ hx, hx'⟩
  · rcases List.mem_append.mp hx with hx | hx
    · obtain ⟨k, hk, hcall⟩ := h.begun x hx call hevent
      by_cases hij : x.task = i
      · subst hij
        cases hi.symm.trans hk
        exact ⟨g', Function.update_self .., hstep.keeps_call hcall⟩
      · exact ⟨k, by rw [Function.update_of_ne hij, hk], hcall⟩
    · obtain ⟨e, he, rfl⟩ := List.mem_map.mp hx
      cases hevent
      exact ⟨g', Function.update_self .., hstep.started he⟩
  · rcases List.mem_append.mp hx with hx | hx
    · obtain ⟨k, hk, hsettled, hcall⟩ := h.settled x hx call answer hevent
      by_cases hij : x.task = i
      · subst hij
        cases hi.symm.trans hk
        exact ⟨g', Function.update_self .., hstep.of_settled hsettled ▸ hsettled,
          hstep.of_settled hsettled ▸ hcall⟩
      · exact ⟨k, by rw [Function.update_of_ne hij, hk], hsettled, hcall⟩
    · obtain ⟨e, he, rfl⟩ := List.mem_map.mp hx
      cases hevent
      exact ⟨g', Function.update_self .., hstep.settled he⟩

/-- All calls that have begun have settled. -/
def AllSettled (log : List (Record Device DeviceEvent)) : Prop :=
  ∀ x ∈ log, ∀ call ∈ x.event.begins, ∃ y ∈ log, y.task = x.task ∧ y.event.settles call

instance (log : List (Record Device DeviceEvent)) : Decidable (AllSettled log) :=
  inferInstanceAs (Decidable (∀ _ ∈ _, ∀ _ ∈ _, ∃ _ ∈ _, _ ∧ _))

theorem Settling.stage {places : Nat → Option Place} {log : List (Record Device DeviceEvent)}
    (h : Settling places log) (hall : AllSettled log) {i : Nat} (hi : places i = some g) :
    g.stage = .new ∨ g.stage = .settled := by
  cases hcall : g.call with
  | none => exact Or.inl (h.fresh i g hi hcall)
  | some call =>
    obtain ⟨x, hx, rfl, hstarted⟩ := h.started i g call hi hcall
    obtain ⟨y, hy, htask, hsettles⟩ := hall x hx call (by rw [hstarted]; rfl)
    obtain ⟨answer, hsettled⟩ := DeviceEvent.settles_iff.mp hsettles
    obtain ⟨k, hk, hstage, -⟩ := h.settled y hy call answer hsettled
    rw [htask, hi] at hk
    cases hk
    exact Or.inr hstage

end Settling

end PassVault
