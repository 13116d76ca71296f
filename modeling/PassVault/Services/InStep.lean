import PassVault.Services.Calls
import PassVault.Sync.StoredHistory

/-!
# The file and the head

The tracked file holds the bytes of the head, or an update is held back, or some call has still to
write. What each step does to this, and what follows for every run.
-/

namespace PassVault

open Async

namespace Device

/-- The row has this path and this head, whose bytes have the hash. -/
structure At (v : Tracked) (path : FilePath) (head : RevisionId) (hash : Sha256Hex) (s : Device) :
    Prop where
  bound : v.kdbxPath = some path
  row : ∃ vault, s.store.tables.getVault v.vaultId = some vault ∧
    vault.headRevisionId = some head
  stored : ∃ row, s.store.tables.revisions.find head = some row ∧ row.hash = hash

/-- The hash of the head's bytes. -/
def headHash (vaultId : VaultId) (s : Device) : Option Sha256Hex :=
  ((s.store.tables.getVault vaultId).bind (·.headRevisionId)).bind fun head =>
    (s.store.tables.revisions.find head).map (·.hash)

/-- The tracked file holds the bytes of the head. -/
def InStep (sha256 : Bytes → Sha256Hex) (v : Tracked) (s : Device) : Prop :=
  ∀ path ∈ v.kdbxPath, ∀ hash ∈ s.headHash v.vaultId, (s.files path).map sha256 = some hash

instance (sha256 : Bytes → Sha256Hex) (v : Tracked) (s : Device) :
    Decidable (s.InStep sha256 v) :=
  inferInstanceAs (Decidable (∀ _ ∈ _, ∀ _ ∈ _, _))

/-- An update waits for the file to be closed, and the timer will try again. -/
def HeldBack (s : Device) : Prop := s.updateHeldBack = true ∧ s.unlockTimer = true

instance (s : Device) : Decidable s.HeldBack := inferInstanceAs (Decidable (_ ∧ _))

variable {sha256 : Bytes → Sha256Hex} {v : Tracked} {s t : Device}

theorem At.unique {path path' : FilePath} {head head' : RevisionId} {hash hash' : Sha256Hex}
    (h : s.At v path head hash) (h' : s.At v path' head' hash') :
    path' = path ∧ head' = head ∧ hash' = hash := by
  obtain ⟨vault, hrow, hhead⟩ := h.row
  obtain ⟨vault', hrow', hhead'⟩ := h'.row
  cases hrow.symm.trans hrow'
  cases hhead.symm.trans hhead'
  obtain ⟨row, hfind, rfl⟩ := h.stored
  obtain ⟨row', hfind', rfl⟩ := h'.stored
  cases hfind.symm.trans hfind'
  exact ⟨Option.some.inj (h'.bound.symm.trans h.bound), rfl, rfl⟩

theorem At.headHash {path : FilePath} {head : RevisionId} {hash : Sha256Hex}
    (h : s.At v path head hash) : s.headHash v.vaultId = some hash := by
  obtain ⟨vault, hrow, hhead⟩ := h.row
  obtain ⟨row, hfind, rfl⟩ := h.stored
  rw [Device.headHash, hrow, Option.bind_some, hhead, Option.bind_some, hfind]
  rfl

theorem at_of_headHash {path : FilePath} {hash : Sha256Hex} (hpath : v.kdbxPath = some path)
    (h : s.headHash v.vaultId = some hash) : ∃ head, s.At v path head hash := by
  obtain ⟨head, hhead, h⟩ := Option.bind_eq_some_iff.mp h
  obtain ⟨vault, hrow, hhead⟩ := Option.bind_eq_some_iff.mp hhead
  obtain ⟨row, hfind, hhash⟩ := Option.map_eq_some_iff.mp h
  exact ⟨head, hpath, ⟨vault, hrow, hhead⟩, row, hfind, hhash⟩

/-- To be in step, it is enough that the file has the hash. -/
theorem At.inStep {path : FilePath} {head : RevisionId} {hash : Sha256Hex} {bytes : Bytes}
    (h : s.At v path head hash) (hfile : s.files path = some bytes) (hhash : sha256 bytes = hash) :
    s.InStep sha256 v := by
  intro path' hpath' hash' hhash'
  cases h.bound.symm.trans hpath'
  cases h.headHash.symm.trans hhash'
  rw [hfile, Option.map_some, hhash]

theorem At.mono {path : FilePath} {head : RevisionId} {hash : Sha256Hex}
    (h : s.At v path head hash)
    (hvaults : t.store.tables.vaults = s.store.tables.vaults) (hgrows : s.store.Grows t.store) :
    t.At v path head hash := by
  obtain ⟨vault, hrow, hhead⟩ := h.row
  obtain ⟨row, hfind, hhash⟩ := h.stored
  refine ⟨h.bound, ⟨vault, ?_, hhead⟩, row, hgrows.tables.revisions _ _ hfind, hhash⟩
  exact (congrArg (·.find v.vaultId) hvaults).trans hrow

/-- Where a vault has a file and a head, the row can be read back. -/
theorem Sound.headAt {path : FilePath} {head : RevisionId} {vault : Vault} (hs : s.Sound sha256 v)
    (hpath : v.kdbxPath = some path) (hrow : s.store.tables.getVault v.vaultId = some vault)
    (hhead : vault.headRevisionId = some head) :
    ∃ row, s.store.tables.revisions.find head = some row ∧ s.At v path head row.hash := by
  obtain ⟨row, hfind, -⟩ := hs.wellFormed.heads _ _ hrow head hhead
  exact ⟨row, hfind, hpath, ⟨vault, hrow, hhead⟩, row, hfind, rfl⟩

end Device

namespace DeviceEvent

/-- `materializeCurrentVersion` came to its end, one way or another. -/
def ended : DeviceEvent → Prop
  | cleared .. | heldBack | writeFailed _ => True
  | _ => False

/-- What was saved becomes the head. -/
def records : DeviceEvent → Prop
  | engine (.wroteVault _ (.recorded ..)) => True
  | _ => False

/-- A step of `materializeCurrentVersion` does no harm: what it writes is the head's bytes to the
head's file, writing does not fail, and it only declares the file up to date when it has written it
and no head has moved meanwhile; if one has, it has nothing to forget. -/
def Careful (sha256 : Bytes → Sha256Hex) (v : Tracked) (s : Device) : DeviceEvent → Prop
  | wroteFile path bytes =>
    v.kdbxPath = some path ∧ s.headHash v.vaultId = some (sha256 bytes)
  | writeFailed _ => False
  | cleared seen outcome =>
    (outcome = .written ∧ seen = s.moves) ∨ (s.updateHeldBack = false ∧ seen ≠ s.moves)
  | _ => True

/-- The update is held back after all, or a head has moved since the call read it. -/
def Overtaken (s : Device) : DeviceEvent → Prop
  | heldBack => True
  | cleared seen _ => seen ≠ s.moves
  | _ => False

/-- A file that is read to be recorded holds the head's bytes, and the head is not moved before they
are compared. -/
def Timely (sha256 : Bytes → Sha256Hex) (v : Tracked) (s : Device) : DeviceEvent → Prop
  | readSaved path => ∀ bytes ∈ s.files path, s.headHash v.vaultId = some (sha256 bytes)
  | engine (.called _ seen) => seen = s.moves
  | _ => True

instance (sha256 : Bytes → Sha256Hex) (v : Tracked) (s : Device) :
    DecidablePred (Timely sha256 v s)
  | readSaved _ => inferInstanceAs (Decidable (∀ _ ∈ _, _))
  | engine (.called ..) => inferInstanceAs (Decidable (_ = _))
  | engine (.saved _) | engine (.wroteVault ..) | engine (.unchanged ..)
  | engine (.advancing ..) | output _ | started _ | settled .. | wroteFile .. | writeFailed _
  | cleared .. | heldBack | based .. | opened _ | decided _ => isTrue trivial

instance : DecidablePred ended
  | cleared .. | heldBack | writeFailed _ => isTrue trivial
  | engine _ | output _ | started _ | settled .. | readSaved _ | wroteFile .. | based ..
  | opened _ | decided _ => isFalse id

instance : DecidablePred records
  | engine (.wroteVault _ (.recorded ..)) => isTrue trivial
  | engine (.wroteVault _ .created) | engine (.wroteVault _ (.imported _))
  | engine (.wroteVault _ (.moved ..)) | engine (.wroteVault _ .adopted)
  | engine (.wroteVault _ .bound) | engine (.saved _) | engine (.called ..)
  | engine (.unchanged ..) | engine (.advancing ..) | output _ | started _ | settled ..
  | readSaved _ | wroteFile .. | writeFailed _ | cleared .. | heldBack | based .. | opened _
  | decided _ => isFalse id

instance (sha256 : Bytes → Sha256Hex) (v : Tracked) (s : Device) :
    DecidablePred (Careful sha256 v s)
  | wroteFile .. => inferInstanceAs (Decidable (_ ∧ _))
  | writeFailed _ => isFalse id
  | cleared .. => inferInstanceAs (Decidable (_ ∧ _ ∨ _ ∧ _))
  | engine _ | output _ | started _ | settled .. | readSaved _ | heldBack | based .. | opened _
  | decided _ => isTrue trivial

instance (s : Device) : DecidablePred (Overtaken s)
  | heldBack => isTrue trivial
  | cleared .. => inferInstanceAs (Decidable (_ ≠ _))
  | engine _ | output _ | started _ | settled .. | readSaved _ | wroteFile .. | writeFailed _
  | based .. | opened _ | decided _ => isFalse id

end DeviceEvent

/-- The call has moved the head, or has read it last, and has still to write the file. -/
def Stage.Owes (moves : Nat) : Stage → Prop
  | owing .writeBack | owing (.decide _) | owing .decideOpen | deciding _ => True
  | looked _ _ seen | read _ _ seen _ | wrote _ _ seen => seen = moves
  | _ => False

/-- What a call knows of the file and the head. `first` is how many head moves there were when the
run began. -/
def Stage.Knows (sha256 : Bytes → Sha256Hex) (v : Tracked) (first : Nat) (s : Device) :
    Stage → Prop
  | looked path head seen => first ≤ seen ∧ seen ≤ s.moves ∧
    (seen = s.moves → ∃ hash, s.At v path head hash)
  | read path head seen onDisk => first ≤ seen ∧ seen ≤ s.moves ∧ (seen = s.moves →
    ∃ hash, s.At v path head hash ∧
      ∀ bytes, onDisk = some bytes → sha256 bytes = hash → s.InStep sha256 v)
  | wrote _ _ seen => first ≤ seen ∧ seen ≤ s.moves ∧ (seen = s.moves → s.InStep sha256 v)
  | owing .clear | unbound => False
  | _ => True

section Following

variable {sha256 : Bytes → Sha256Hex} {v : Tracked} {first : Nat} {unknown : Prop}
  {s t : Device}

/-- As long as the head is not moved, a file in step stays in step. -/
structure Device.Steady (sha256 : Bytes → Sha256Hex) (v : Tracked) (s t : Device) : Prop where
  moves : s.moves ≤ t.moves
  heads : s.moves = t.moves → ∀ path head hash, s.At v path head hash → t.At v path head hash
  inStep : s.moves = t.moves → s.InStep sha256 v → t.InStep sha256 v

theorem Device.Steady.knows (h : s.Steady sha256 v t) {g : Stage} (hg : g.Knows sha256 v first s) :
    g.Knows sha256 v first t := by
  have hmoves := h.moves
  cases g with
  | looked path head seen =>
    obtain ⟨hfirst, hseen, hat⟩ := hg
    refine ⟨hfirst, hseen.trans hmoves, fun heq => ?_⟩
    have hsame : s.moves = t.moves := by omega
    exact (hat (heq.trans hsame.symm)).imp fun hash => h.heads hsame _ _ _
  | read path head seen onDisk =>
    obtain ⟨hfirst, hseen, hat⟩ := hg
    refine ⟨hfirst, hseen.trans hmoves, fun heq => ?_⟩
    have hsame : s.moves = t.moves := by omega
    obtain ⟨hash, hat, hagrees⟩ := hat (heq.trans hsame.symm)
    exact ⟨hash, h.heads hsame _ _ _ hat, fun bytes hb hh => h.inStep hsame (hagrees bytes hb hh)⟩
  | wrote path head seen =>
    obtain ⟨hfirst, hseen, hin⟩ := hg
    refine ⟨hfirst, hseen.trans hmoves, fun heq => ?_⟩
    have hsame : s.moves = t.moves := by omega
    exact h.inStep hsame (hin (heq.trans hsame.symm))
  | owing todo => cases todo <;> exact hg
  | unbound => exact hg
  | _ => trivial

/-- Neither rows of vaults nor files change. -/
theorem Device.steady_of_same (hvaults : t.store.tables.vaults = s.store.tables.vaults)
    (hgrows : s.store.Grows t.store) (hs : s.Sound sha256 v) (hfiles : t.files = s.files)
    (hmoves : t.moves = s.moves) : s.Steady sha256 v t := by
  refine ⟨hmoves.ge, fun _ path head hash h => h.mono hvaults hgrows, fun _ h => ?_⟩
  intro path hpath hash hhash
  obtain ⟨head, hat⟩ := Device.at_of_headHash hpath hhash
  obtain ⟨vault, hrow, hhead⟩ := hat.row
  have hrow : s.store.tables.getVault v.vaultId = some vault :=
    (congrArg (·.find v.vaultId) hvaults).symm.trans hrow
  obtain ⟨row, -, hold⟩ := hs.headAt hpath hrow hhead
  obtain ⟨-, -, rfl⟩ := (hold.mono hvaults hgrows).unique hat
  rw [hfiles]
  exact h path hpath _ hold.headHash

theorem FileSteps.steady {call : ServiceCall} {g g' : Stage} {events : List DeviceEvent}
    (h : FileSteps sha256 v call g s events t g') (hs : s.Sound sha256 v)
    (hcareful : ∀ e ∈ events, e.Careful sha256 v s) : s.Steady sha256 v t := by
  cases h with
  | @writes s path read seen onDisk bytes =>
    obtain ⟨hpath, hhash⟩ := hcareful _ (List.mem_singleton.mpr rfl)
    obtain ⟨head, hat⟩ := Device.at_of_headHash hpath hhash
    have hnow : (s.setFile path bytes).At v path head (sha256 bytes) := hat.mono rfl (.refl _)
    exact ⟨Nat.le_refl _, fun _ _ _ _ h => h.mono rfl (.refl _), fun _ _ =>
      hnow.inStep (by simp [Device.setFile]) rfl⟩
  | fails => exact (hcareful _ (List.mem_singleton.mpr rfl)).elim
  | _ => exact Device.steady_of_same rfl (.refl _) hs rfl rfl

theorem StoreSteps.steady {call : ServiceCall} {c : Option Combination} {g g' : Stage}
    {events : List DeviceEvent} (h : StoreSteps sha256 v call c g s events t g')
    (hs : s.Sound sha256 v) : s.Steady sha256 v t := by
  cases h with
  | records _ _ hsaves =>
    exact Device.steady_of_same (Tables.vaults_saveRevision hsaves.save)
      (Store.grows_setTables (Tables.grows_saveRevision hsaves.save)) hs rfl rfl
  | decides _ _ hsave | opens _ _ _ hsave =>
    exact Device.steady_of_same (Tables.saveConflict_same hsave).1 (Store.grows_saveConflict hsave)
      hs rfl rfl
  | moves =>
    exact ⟨Nat.le_succ _, fun heq => absurd heq (Nat.succ_ne_self _).symm,
      fun heq => absurd heq (Nat.succ_ne_self _).symm⟩
  | _ => exact Device.steady_of_same rfl (.refl _) hs rfl rfl

/-- A call that does no harm leaves a file in step, until the head is moved. -/
theorem ServiceSteps.steady {g g' : Place} {events : List DeviceEvent}
    (h : ServiceSteps sha256 v g s events t g') (hs : s.Sound sha256 v)
    (hcareful : ∀ e ∈ events, e.Careful sha256 v s) : s.Steady sha256 v t := by
  cases h with
  | idle hidle =>
    have hfiles : t.files = s.files := by rw [hidle.same]
    have hmoves : t.moves = s.moves := by rw [hidle.same]
    exact Device.steady_of_same hidle.store.vaults hidle.store.grows hs hfiles hmoves
  | starts | settles => exact Device.steady_of_same rfl (.refl _) hs rfl rfl
  | receives _ hsave =>
    exact Device.steady_of_same (Tables.vaults_saveRevision hsave)
      (Store.grows_setTables (Tables.grows_saveRevision hsave)) hs rfl rfl
  | merges _ hsaves =>
    exact Device.steady_of_same (Tables.vaults_saveRevision hsaves.save)
      (Store.grows_setTables (Tables.grows_saveRevision hsaves.save)) hs rfl rfl
  | file h => exact h.steady hs hcareful
  | store h => exact h.steady hs

/-- What holds of the calls under way and of the events so far. `unknown` says that the file may
have been out of step when the run began. -/
structure Following (sha256 : Bytes → Sha256Hex) (v : Tracked) (first : Nat) (unknown : Prop)
    (places : Nat → Option Place) (s : Device) (log : List (Record Device DeviceEvent)) : Prop where
  head : ∃ path head hash, s.At v path head hash
  moves : first ≤ s.moves
  knows : ∀ (i : Nat) g, places i = some g → g.stage.Knows sha256 v first s
  /-- Nothing is out of step unnoticed, once the head was moved or the file was written. -/
  noticed : s.InStep sha256 v ∨ s.HeldBack ∨
    (∃ (i : Nat) (g : Place), places i = some g ∧ g.stage.Owes s.moves) ∨
    (unknown ∧ s.moves = first ∧ ∀ x ∈ log, ¬ x.event.ended)

/-- A step that neither moves the head nor ends `materializeCurrentVersion`, and after which the
call owes what it owed. -/
theorem Following.undisturbed {places : Nat → Option Place} {i : Nat} {g g' : Place}
    {log : List (Record Device DeviceEvent)} {events : List DeviceEvent}
    (h : Following sha256 v first unknown places s log) (hi : places i = some g)
    (hsteady : s.Steady sha256 v t) (hmoves : t.moves = s.moves)
    (hheld : s.HeldBack → t.HeldBack) (hquiet : ∀ e ∈ events, ¬ e.ended)
    (howes : g.stage.Owes s.moves → g'.stage.Owes s.moves)
    (hknows : g.stage.Knows sha256 v first s → g'.stage.Knows sha256 v first t) :
    Following sha256 v first unknown (Function.update places i (some g')) t
      (log ++ events.map (⟨i, s, ·⟩)) := by
  refine ⟨?_, hmoves ▸ h.moves, ?_, ?_⟩
  · obtain ⟨path, head, hash, hat⟩ := h.head
    exact ⟨path, head, hash, hsteady.heads hmoves.symm _ _ _ hat⟩
  · refine forall_update ?_ fun j k _ hj => ?_
    · exact hknows (h.knows _ _ hi)
    · exact hsteady.knows (h.knows j k hj)
  · rcases h.noticed with hin | hback | ⟨j, k, hj, howes'⟩ | ⟨hunknown, hfirst, hnone⟩
    · exact Or.inl (hsteady.inStep hmoves.symm hin)
    · exact Or.inr (Or.inl (hheld hback))
    · refine Or.inr (Or.inr (Or.inl ?_))
      rw [hmoves]
      by_cases hij : j = i
      · subst hij
        rw [hi] at hj
        cases hj
        exact ⟨j, g', Function.update_self .., howes howes'⟩
      · exact ⟨j, k, by rw [Function.update_of_ne hij, hj], howes'⟩
    · refine Or.inr (Or.inr (Or.inr ⟨hunknown, hmoves.trans hfirst, fun x hx => ?_⟩))
      rcases List.mem_append.mp hx with hx | hx
      · exact hnone x hx
      · obtain ⟨e, he, rfl⟩ := List.mem_map.mp hx
        exact hquiet e he

/-- A step after which the file is in step or the update is held back. -/
theorem Following.resolved {places : Nat → Option Place} {i : Nat} {g g' : Place}
    {log log' : List (Record Device DeviceEvent)}
    (h : Following sha256 v first unknown places s log) (hi : places i = some g)
    (hsteady : s.Steady sha256 v t) (hmoves : t.moves = s.moves)
    (hnow : t.InStep sha256 v ∨ t.HeldBack)
    (hknows : g.stage.Knows sha256 v first s → g'.stage.Knows sha256 v first t) :
    Following sha256 v first unknown (Function.update places i (some g')) t log' := by
  refine ⟨?_, hmoves ▸ h.moves, ?_, hnow.imp_right Or.inl⟩
  · obtain ⟨path, head, hash, hat⟩ := h.head
    exact ⟨path, head, hash, hsteady.heads hmoves.symm _ _ _ hat⟩
  · refine forall_update ?_ fun j k _ hj => ?_
    · exact hknows (h.knows _ _ hi)
    · exact hsteady.knows (h.knows j k hj)

/-- A step that declares the file up to date. -/
theorem Following.cleared {places : Nat → Option Place} {i : Nat} {g g' : Place}
    {log log' : List (Record Device DeviceEvent)} {seen : Nat} {outcome : WriteOutcome}
    (h : Following sha256 v first unknown places s log) (hi : places i = some g)
    (hsteady : s.Steady sha256 v { s with updateHeldBack := false, unlockTimer := false })
    (hcareful : (DeviceEvent.cleared seen outcome).Careful sha256 v s)
    (hseen : first ≤ seen ∧ seen ≤ s.moves) (howes : g.stage.Owes s.moves → seen = s.moves)
    (hin : outcome = .written → seen = s.moves → s.InStep sha256 v)
    (hknows : g'.stage.Knows sha256 v first { s with updateHeldBack := false, unlockTimer := false }) :
    Following sha256 v first unknown (Function.update places i (some g'))
      { s with updateHeldBack := false, unlockTimer := false } log' := by
  rcases hcareful with ⟨hwritten, hnow⟩ | ⟨hflag, hlater⟩
  · exact h.resolved hi hsteady rfl (Or.inl (hsteady.inStep rfl (hin hwritten hnow))) fun _ => hknows
  · -- Another call has moved the head since, and there was nothing to forget.
    refine ⟨?_, h.moves, ?_, ?_⟩
    · obtain ⟨path, head, hash, hat⟩ := h.head
      exact ⟨path, head, hash, hsteady.heads rfl _ _ _ hat⟩
    · refine forall_update ?_ fun j k _ hj => ?_
      · exact hknows
      · exact hsteady.knows (h.knows j k hj)
    · rcases h.noticed with hin' | ⟨hback, -⟩ | ⟨j, k, hj, howes'⟩ | ⟨-, hfirst, -⟩
      · exact Or.inl (hsteady.inStep rfl hin')
      · rw [hflag] at hback
        cases hback
      · refine Or.inr (Or.inr (Or.inl ⟨j, k, ?_, howes'⟩))
        rw [Function.update_of_ne, hj]
        rintro rfl
        rw [hi] at hj
        cases hj
        exact hlater (howes howes')
      · omega

theorem Stage.not_owes_of_mayEnd {g : Stage} (h : g.mayEnd) (moves : Nat) : ¬ g.Owes moves := by
  intro howes
  cases g <;> first | exact h | exact howes

/-- The row of a vault with a file and a head. -/
theorem Following.at {places : Nat → Option Place} {log : List (Record Device DeviceEvent)}
    (h : Following sha256 v first unknown places s log) {vault : Vault}
    (hrow : s.store.tables.getVault v.vaultId = some vault) :
    ∃ path head hash, v.kdbxPath = some path ∧ vault.headRevisionId = some head ∧
      s.At v path head hash := by
  obtain ⟨path, head, hash, hat⟩ := h.head
  obtain ⟨vault', hrow', hhead⟩ := hat.row
  cases hrow.symm.trans hrow'
  exact ⟨path, head, hash, hat.bound, hhead, hat⟩

/-- What is declared up to date is, unless the head has moved. -/
theorem FileSteps.inStep {call : ServiceCall} {g g' : Stage} {seen : Nat}
    (h : FileSteps sha256 v call g s [.cleared seen .written] t g')
    (hknown : g.Knows sha256 v first s) (hnow : seen = s.moves) : s.InStep sha256 v := by
  cases h with
  | agrees hrow hhash =>
    obtain ⟨-, -, hat⟩ := hknown
    obtain ⟨hash, hat, hagrees⟩ := hat hnow
    obtain ⟨row', hrow', rfl⟩ := hat.stored
    cases hrow.symm.trans hrow'
    exact hagrees _ rfl hhash
  | clears => exact hknown.2.2 hnow

theorem Following.file {places : Nat → Option Place} {i : Nat} {call : ServiceCall}
    {c : Option Combination} {g g' : Stage} {log : List (Record Device DeviceEvent)}
    {events : List DeviceEvent} (h : Following sha256 v first unknown places s log)
    (hi : places i = some ⟨g, some call, c⟩) (hs : s.Sound sha256 v)
    (hsteady : s.Steady sha256 v t) (hcareful : ∀ e ∈ events, e.Careful sha256 v s)
    (hstep : FileSteps sha256 v call g s events t g') :
    Following sha256 v first unknown (Function.update places i (some ⟨g', some call, c⟩)) t
      (log ++ events.map (⟨i, s, ·⟩)) := by
  have hknown := h.knows _ _ hi
  cases hstep with
  | readsSaved hcall =>
    refine h.undisturbed hi hsteady rfl id (by simp [DeviceEvent.ended]) (fun howes => howes.elim) ?_
    intro _
    dsimp only
    split <;> trivial
  | looks hlooks hrow hpath hhead =>
    refine h.undisturbed hi hsteady rfl id (by simp) (fun _ => rfl) fun _ => ?_
    obtain ⟨row, -, hat⟩ := hs.headAt hpath hrow hhead
    exact ⟨h.moves, Nat.le_refl _, fun _ => ⟨_, hat⟩⟩
  | unbound hlooks hrow hnone =>
    obtain ⟨path, head, hash, hpath, hhead, -⟩ := h.at hrow
    rw [hpath, hhead] at hnone
    simp at hnone
  | reads =>
    refine h.undisturbed hi hsteady rfl id (by simp) id fun hlooked => ?_
    obtain ⟨hfirst, hseen, hat⟩ := hlooked
    refine ⟨hfirst, hseen, fun heq => ?_⟩
    obtain ⟨hash, hat⟩ := hat heq
    exact ⟨hash, hat, fun bytes hfile hhash => hat.inStep hfile hhash⟩
  | agrees hrow hhash =>
    exact h.cleared hi hsteady (hcareful _ (List.mem_singleton.mpr rfl)) ⟨hknown.1, hknown.2.1⟩ id
      (fun _ => (@FileSteps.agrees sha256 v call _ _ _ _ _ _ hrow hhash).inStep hknown) trivial
  | holdsBack => exact h.resolved hi hsteady rfl (Or.inr ⟨rfl, rfl⟩) fun _ => trivial
  | @writes s path read seen onDisk bytes =>
    obtain ⟨hpath, hhash⟩ := hcareful _ (List.mem_singleton.mpr rfl)
    obtain ⟨head, hat⟩ := Device.at_of_headHash hpath hhash
    have hnow : (s.setFile path bytes).At v path head (sha256 bytes) := hat.mono rfl (.refl _)
    have hin : (s.setFile path bytes).InStep sha256 v :=
      hnow.inStep (by simp [Device.setFile]) rfl
    exact h.resolved hi hsteady rfl (Or.inl hin) fun hread => ⟨hread.1, hread.2.1, fun _ => hin⟩
  | fails files => exact (hcareful _ (List.mem_singleton.mpr rfl)).elim
  | refused =>
    obtain ⟨hfirst, hseen, -⟩ := hknown
    exact h.cleared hi hsteady (hcareful _ (List.mem_singleton.mpr rfl)) ⟨hfirst, hseen⟩ id
      (fun hwritten => by cases hwritten) trivial
  | clears =>
    exact h.cleared hi hsteady (hcareful _ (List.mem_singleton.mpr rfl)) ⟨hknown.1, hknown.2.1⟩ id
      (fun _ => hknown.2.2) trivial
  | forgets => exact hknown.elim

theorem Following.store {places : Nat → Option Place} {i : Nat} {call : ServiceCall}
    {c : Option Combination} {g g' : Stage} {log : List (Record Device DeviceEvent)}
    {events : List DeviceEvent} (h : Following sha256 v first unknown places s log)
    (hi : places i = some ⟨g, some call, c⟩) (ht : t.Sound sha256 v)
    (hsteady : s.Steady sha256 v t) (hnew : ∀ e ∈ events, ¬ e.records)
    (hstep : StoreSteps sha256 v call c g s events t g') :
    Following sha256 v first unknown (Function.update places i (some ⟨g', some call, c⟩)) t
      (log ++ events.map (⟨i, s, ·⟩)) := by
  cases hstep with
  | compares | finds | bases | seesHead =>
    exact h.undisturbed hi hsteady rfl id (by simp [DeviceEvent.ended]) (fun howes => howes.elim)
      fun _ => trivial
  | judges =>
    refine h.undisturbed hi hsteady rfl id (by simp) (fun howes => howes.elim) fun _ => ?_
    dsimp only
    split <;> trivial
  | lists => exact h.undisturbed hi hsteady rfl id (by simp) (fun _ => trivial) fun _ => trivial
  | records _ _ hsaves =>
    exact h.undisturbed hi hsteady rfl id (by simp [DeviceEvent.ended]) (fun howes => howes.elim)
      fun _ => trivial
  | decides hdecides hdecided hsave =>
    refine h.undisturbed hi hsteady rfl id (by simp [DeviceEvent.ended]) (fun _ => ?_) fun _ => ?_
    all_goals cases hdecides <;> trivial
  | opens _ _ _ hsave =>
    exact h.undisturbed hi hsteady rfl id (by simp [DeviceEvent.ended]) (fun howes => howes.elim)
      fun _ => trivial
  | @moves g s vault revisionId todo why hleads hid hpath hhead hof hwhy =>
    have htodo : todo ≠ .clear := fun hclear => by
      obtain ⟨revision, origin, rfl⟩ := hwhy.2.mpr hclear
      exact hnew _ (List.mem_singleton.mpr rfl) trivial
    have howes : (Stage.owing todo).Owes (s.moves + 1) := by
      cases todo <;> trivial
    refine ⟨?_, h.moves.trans (Nat.le_succ _), ?_, ?_⟩
    · obtain ⟨path, _, _, hat⟩ := h.head
      obtain ⟨row, hrow, hrowHead, -⟩ := Tables.getVault_saveVault s.store.tables vault
      rw [hid] at hrow
      obtain ⟨stored, -, hnow⟩ := ht.headAt hat.bound hrow (hrowHead.trans hhead)
      exact ⟨path, revisionId, _, hnow⟩
    · refine forall_update ?_ fun j k _ hj => ?_
      · cases todo <;> trivial
      · exact hsteady.knows (h.knows j k hj)
    · exact Or.inr (Or.inr (Or.inl ⟨i, _, Function.update_self .., howes⟩))

/-- Every step of a call keeps this, if it does no harm and records nothing. -/
theorem Following.step {places : Nat → Option Place} {i : Nat} {g g' : Place}
    {log : List (Record Device DeviceEvent)} {events : List DeviceEvent}
    (h : Following sha256 v first unknown places s log) (hi : places i = some g) (hs : s.Sound sha256 v)
    (ht : t.Sound sha256 v) (hcareful : ∀ e ∈ events, e.Careful sha256 v s)
    (hnew : ∀ e ∈ events, ¬ e.records) (hstep : ServiceSteps sha256 v g s events t g') :
    Following sha256 v first unknown (Function.update places i (some g')) t
      (log ++ events.map (⟨i, s, ·⟩)) := by
  have hsteady := hstep.steady hs hcareful
  cases hstep with
  | idle hidle hquiet =>
    have hmoves : t.moves = s.moves := by rw [hidle.same]
    refine h.undisturbed hi hsteady hmoves (fun hback => ?_) (fun e he hend => ?_) id
      hsteady.knows
    · rw [hidle.same]
      exact hback
    · have hquiet := hquiet e he
      cases e <;> first | exact hquiet | exact hend
  | receives | merges | starts =>
    exact h.undisturbed hi hsteady rfl id (by simp [DeviceEvent.ended]) (fun howes => howes.elim)
      fun _ => trivial
  | settles hend =>
    exact h.undisturbed hi hsteady rfl id (by simp [DeviceEvent.ended])
      (fun howes => (Stage.not_owes_of_mayEnd hend _ howes).elim) fun _ => trivial
  | file hstep => exact h.file hi hs hsteady hcareful hstep
  | store hstep => exact h.store hi ht hsteady hnew hstep

/-- A program that has done nothing yet changes nothing. -/
theorem Following.start {places : Nat → Option Place} {log : List (Record Device DeviceEvent)}
    (h : Following sha256 v first unknown places s log) {i : Nat} (hi : places i = none) :
    Following sha256 v first unknown (Function.update places i (some .first)) s log := by
  refine ⟨h.head, h.moves, ?_, h.noticed.imp_right (Or.imp_right (Or.imp_left ?_))⟩
  · refine forall_update ?_ fun j k _ hj => ?_
    · trivial
    · exact h.knows j k hj
  · rintro ⟨j, k, hj, howes⟩
    refine ⟨j, k, ?_, howes⟩
    rw [Function.update_of_ne, hj]
    rintro rfl
    rw [hi] at hj
    cases hj

/-- Once all calls have settled, a file that was brought up to date is in step. -/
theorem Following.settled {places : Nat → Option Place} {log : List (Record Device DeviceEvent)}
    (h : Following sha256 v first unknown places s log) (hsettling : Settling places log)
    (hall : AllSettled log) (hended : unknown → ∃ x ∈ log, x.event.ended) :
    s.InStep sha256 v ∨ s.HeldBack := by
  rcases h.noticed with hin | hback | ⟨i, g, hi, howes⟩ | ⟨hunknown, -, hnone⟩
  · exact Or.inl hin
  · exact Or.inr hback
  · rcases hsettling.stage hall hi with hstage | hstage <;> rw [hstage] at howes <;>
      exact howes.elim
  · obtain ⟨x, hx, hend⟩ := hended hunknown
    exact absurd hend (hnone x hx)

/-! ## Answers -/

/-- The call was overtaken when it brought the file up to date. -/
def Overtaken (log : List (Record Device DeviceEvent)) (i : Nat) : Prop :=
  ∃ x ∈ log, x.task = i ∧ x.event.Overtaken x.state

instance (log : List (Record Device DeviceEvent)) (i : Nat) : Decidable (Overtaken log i) :=
  inferInstanceAs (Decidable (∃ _ ∈ _, _ ∧ _))

theorem Overtaken.append {log : List (Record Device DeviceEvent)} {i : Nat} (h : Overtaken log i)
    (later : List (Record Device DeviceEvent)) : Overtaken (log ++ later) i := by
  obtain ⟨x, hx, h⟩ := h
  exact ⟨x, List.mem_append_left _ hx, h⟩

/-- A call that answers that the file is written was right, unless it was overtaken. -/
structure Answered (sha256 : Bytes → Sha256Hex) (v : Tracked) (places : Nat → Option Place)
    (s : Device) (log : List (Record Device DeviceEvent)) : Prop where
  held : ∀ (i : Nat) g, places i = some g → g.stage = .held → Overtaken log i
  cleared : ∀ (i : Nat) g n, places i = some g → g.stage = .cleared n → n ≤ s.moves ∧
    (n = s.moves → s.InStep sha256 v ∨ Overtaken log i)
  written : ∀ x ∈ log, ∀ call path, x.event = .settled call (.ok (.writeBack (.written path))) →
    x.state.InStep sha256 v ∨ Overtaken log x.task

theorem ServiceSteps.held {g g' : Place} {events : List DeviceEvent}
    (h : ServiceSteps sha256 v g s events t g') (hheld : g'.stage = .held) :
    g.stage = .held ∨ .heldBack ∈ events := by
  cases h with
  | idle => exact Or.inl hheld
  | receives | starts | settles | merges => cases hheld
  | file h =>
    cases h with
    | holdsBack => exact Or.inr (List.mem_singleton.mpr rfl)
    | readsSaved => dsimp only at hheld; split at hheld <;> cases hheld
    | _ => cases hheld
  | store h =>
    cases h with
    | judges => dsimp only at hheld; split at hheld <;> cases hheld
    | decides hdecides => cases hdecides <;> cases hheld
    | _ => cases hheld

theorem ServiceSteps.cleared {g g' : Place} {events : List DeviceEvent} {n : Nat}
    (h : ServiceSteps sha256 v g s events t g') (hcleared : g'.stage = .cleared n)
    (hcareful : ∀ e ∈ events, e.Careful sha256 v s) (hknown : g.stage.Knows sha256 v first s) :
    g.stage = .cleared n ∨ n = t.moves ∧ s.moves = t.moves ∧ (s.InStep sha256 v ∨
      ∃ seen outcome, .cleared seen outcome ∈ events ∧ seen ≠ s.moves) := by
  have hcase : ∀ {call : ServiceCall} {g g' : Stage} {seen : Nat} {outcome : WriteOutcome},
      FileSteps sha256 v call g s [.cleared seen outcome] t g' →
      (DeviceEvent.cleared seen outcome).Careful sha256 v s → g.Knows sha256 v first s →
      s.InStep sha256 v ∨ ∃ seen' outcome',
        DeviceEvent.cleared seen' outcome' ∈ [DeviceEvent.cleared seen outcome] ∧
          seen' ≠ s.moves := by
    rintro call g g' seen outcome hstep (⟨rfl, hnow⟩ | ⟨-, hlater⟩) hknown
    · exact Or.inl (hstep.inStep hknown hnow)
    · exact Or.inr ⟨seen, outcome, List.mem_singleton.mpr rfl, hlater⟩
  cases h with
  | idle => exact Or.inl hcleared
  | receives | starts | settles | merges => cases hcleared
  | file h =>
    have hfile := h
    cases h with
    | agrees | refused | clears =>
      cases hcleared
      exact Or.inr ⟨rfl, rfl, hcase hfile (hcareful _ (List.mem_singleton.mpr rfl)) hknown⟩
    | readsSaved => dsimp only at hcleared; split at hcleared <;> cases hcleared
    | _ => cases hcleared
  | store h =>
    cases h with
    | judges => dsimp only at hcleared; split at hcleared <;> cases hcleared
    | decides hdecides => cases hdecides <;> cases hcleared
    | _ => cases hcleared

theorem Answered.start {places : Nat → Option Place} {log : List (Record Device DeviceEvent)}
    (h : Answered sha256 v places s log) (i : Nat) :
    Answered sha256 v (Function.update places i (some .first)) s log := by
  refine ⟨?_, fun j k n hj => ?_, h.written⟩
  · refine forall_update ?_ fun j k _ hj => ?_
    · intro hheld
      cases hheld
    · intro hheld
      exact h.held j k hj hheld
  · revert j k
    refine forall_update ?_ fun j k _ hj => ?_
    · intro hcleared
      cases hcleared
    · intro hcleared
      exact h.cleared j k n hj hcleared

theorem Answered.step {places : Nat → Option Place} {i : Nat} {g g' : Place}
    {log : List (Record Device DeviceEvent)} {events : List DeviceEvent}
    (h : Answered sha256 v places s log) (hknown : g.stage.Knows sha256 v first s)
    (hi : places i = some g) (hs : s.Sound sha256 v)
    (hcareful : ∀ e ∈ events, e.Careful sha256 v s) (hstep : ServiceSteps sha256 v g s events t g') :
    Answered sha256 v (Function.update places i (some g')) t (log ++ events.map (⟨i, s, ·⟩)) := by
  have hsteady := hstep.steady hs hcareful
  have hnew : ∀ e ∈ events, (⟨i, s, e⟩ : Record Device DeviceEvent) ∈ log ++ events.map (⟨i, s, ·⟩) :=
    fun e he => List.mem_append_right _ (List.mem_map_of_mem he)
  have hstays : ∀ j n, n ≤ s.moves ∧ (n = s.moves → s.InStep sha256 v ∨ Overtaken log j) →
      n ≤ t.moves ∧ (n = t.moves → t.InStep sha256 v ∨
        Overtaken (log ++ events.map (⟨i, s, ·⟩)) j) := by
    rintro j n ⟨hle, hin⟩
    refine ⟨hle.trans hsteady.moves, fun heq => ?_⟩
    have hmoves := hsteady.moves
    have hsame : s.moves = t.moves := by omega
    exact (hin (heq.trans hsame.symm)).imp (hsteady.inStep hsame) (·.append _)
  refine ⟨?_, fun j k n hj => ?_, fun x hx call path hevent => ?_⟩
  · refine forall_update ?_ fun j k _ hj => ?_
    · intro hheld
      rcases hstep.held hheld with hold | hback
      · exact (h.held _ _ hi hold).append _
      · exact ⟨_, hnew _ hback, rfl, trivial⟩
    · intro hheld
      exact (h.held j k hj hheld).append _
  · revert j k
    refine forall_update ?_ fun j k _ hj => ?_
    · intro hcleared
      rcases hstep.cleared hcleared hcareful hknown with hold | ⟨rfl, hsame, hin | ⟨seen, outcome, he, hlater⟩⟩
      · exact hstays _ _ (h.cleared _ _ n hi hold)
      · exact ⟨Nat.le_refl _, fun _ => Or.inl (hsteady.inStep hsame hin)⟩
      · exact ⟨Nat.le_refl _, fun _ => Or.inr ⟨_, hnew _ he, rfl, hlater⟩⟩
    · intro hcleared
      exact hstays j n (h.cleared j k n hj hcleared)
  · rcases List.mem_append.mp hx with hx | hx
    · exact (h.written x hx call path hevent).imp_right (·.append _)
    · obtain ⟨e, he, rfl⟩ := List.mem_map.mp hx
      cases hevent
      cases hstep with
      | idle _ hquiet => exact (hquiet _ he).elim
      | receives | starts | merges => simp at he
      | file hstep => cases hstep <;> simp at he
      | store hstep => cases hstep <;> simp at he
      | settles hend hmerged hwritten =>
        cases List.mem_singleton.mp he
        rcases hwritten path rfl with rfl | rfl | rfl
        · exact Or.inr ((h.held _ _ hi rfl).append _)
        · exact hknown.elim
        · exact ((h.cleared _ _ _ hi rfl).2 rfl).imp_right (·.append _)

/-! ## Nothing of its own is taken for a save -/

/-- What a call knows of the file that it has read to be recorded. -/
def Stage.Unsaved (sha256 : Bytes → Sha256Hex) (v : Tracked) (s : Device) : Stage → Prop
  | saved bytes seen => seen ≤ s.moves ∧
    (seen = s.moves → s.headHash v.vaultId = some (sha256 bytes))
  | compared bytes vault => ∃ head row, vault.headRevisionId = some head ∧
    s.store.tables.revisions.find head = some row ∧ row.hash = sha256 bytes
  | recorded _ | owing .clear => False
  | _ => True

theorem Device.Steady.unsaved (h : s.Steady sha256 v t) (hgrows : s.store.Grows t.store)
    (hhead : ∃ path head hash, s.At v path head hash) {g : Stage} (hg : g.Unsaved sha256 v s) :
    g.Unsaved sha256 v t := by
  have hmoves := h.moves
  cases g with
  | saved bytes seen =>
    obtain ⟨hseen, hsame⟩ := hg
    refine ⟨hseen.trans hmoves, fun heq => ?_⟩
    have hunmoved : s.moves = t.moves := by omega
    obtain ⟨path, head, hash, hat⟩ := hhead
    have hnow := hsame (heq.trans hunmoved.symm)
    rw [hat.headHash] at hnow
    rw [(h.heads hunmoved _ _ _ hat).headHash, hnow]
  | compared bytes vault =>
    obtain ⟨head, row, hh, hrow, hhash⟩ := hg
    exact ⟨head, row, hh, hgrows.tables.revisions _ _ hrow, hhash⟩
  | owing todo => cases todo <;> exact hg
  | recorded => exact hg
  | _ => trivial

/-- Nothing is recorded by a step, and the call knows what it should. -/
theorem ServiceSteps.unsaved {g g' : Place} {events : List DeviceEvent}
    (hstep : ServiceSteps sha256 v g s events t g') (hknown : g.stage.Unsaved sha256 v s)
    (htimely : ∀ e ∈ events, e.Timely sha256 v s)
    (hstays : g.stage.Unsaved sha256 v s → g.stage.Unsaved sha256 v t) :
    (∀ e ∈ events, ¬ e.records) ∧ g'.stage.Unsaved sha256 v t := by
  cases hstep with
  | idle _ hquiet =>
    refine ⟨fun e he hrecords => ?_, hstays hknown⟩
    have hquiet := hquiet e he
    cases e with
    | engine e => cases e <;> first | exact hquiet | exact hrecords
    | _ => exact hrecords
  | receives | starts | settles | merges => exact ⟨by simp [DeviceEvent.records], trivial⟩
  | file hstep =>
    cases hstep with
    | readsSaved =>
      refine ⟨by simp [DeviceEvent.records], ?_⟩
      have hread := htimely _ (List.mem_singleton.mpr rfl)
      dsimp only
      split
      · rename_i bytes hfile
        exact ⟨Nat.le_refl _, fun _ => hread bytes hfile⟩
      · trivial
    | forgets => exact hknown.elim
    | _ => exact ⟨by simp [DeviceEvent.records], trivial⟩
  | store hstep =>
    cases hstep with
    | compares hrow =>
      refine ⟨by simp [DeviceEvent.records], ?_⟩
      have hhash := hknown.2 (htimely _ (List.mem_singleton.mpr rfl))
      rw [Device.headHash, hrow, Option.bind_some] at hhash
      obtain ⟨head, hhead, hhash⟩ := Option.bind_eq_some_iff.mp hhash
      obtain ⟨row, hfind, hhash⟩ := Option.map_eq_some_iff.mp hhash
      exact ⟨head, row, hhead, hfind, hhash⟩
    | records hdiffers =>
      obtain ⟨head, row, hhead, hrow, hhash⟩ := hknown
      obtain ⟨row', hrow', hne⟩ := hdiffers head hhead
      cases hrow.symm.trans hrow'
      exact absurd hhash hne
    | @moves _ s vault revisionId todo why hleads hid hpath hhead hof hwhy =>
      have htodo : todo ≠ .clear := fun hclear => by
        subst hclear
        cases hleads
        exact hknown
      refine ⟨fun e he hrecords => htodo (hwhy.2.mp ?_), ?_⟩
      · cases List.mem_singleton.mp he
        cases why with
        | recorded revision origin => exact ⟨revision, origin, rfl⟩
        | _ => exact hrecords.elim
      · cases todo <;> trivial
    | judges =>
      refine ⟨by simp, ?_⟩
      dsimp only
      split <;> trivial
    | decides hdecides =>
      refine ⟨by simp [DeviceEvent.records], ?_⟩
      cases hdecides <;> trivial
    | _ => exact ⟨by simp [DeviceEvent.records], trivial⟩

end Following

/-! ## Runs -/

/-- Whatever calls move the head and bring the file up to date, and however they interleave with
each other, with the lock file and with the platform: when all have settled, a file that was brought
up to date is in step with the head or an update is held back with the timer armed, and
`applyPendingUpdate` only answers that the file is written when it is. Each write must put the
bytes of the head of that moment in place, none may fail or be refused after the file was found
unlocked, no head may move between the reading of the row and the end, and a call that answers must
not have been overtaken itself. -/
theorem never_silently_out_of_step (deps : ServiceDeps) (v : Tracked) (start : Device)
    (hstart : start.Sound deps.sha256 v) (hhead : ∃ path head hash, start.At v path head hash)
    (moves : List (Move ServiceCommand)) (w : Pool Device DeviceEvent Failure)
    (log : List (Record Device DeviceEvent))
    (h : (⟨start, []⟩ : Pool Device DeviceEvent Failure).trace
      (services deps fun _ call => !call.writesOut) moves = some (w, log))
    (hcareful : ∀ x ∈ log, x.event.Fresh x.state ∧ x.event.Careful deps.sha256 v x.state)
    (hunsaved : ∀ x ∈ log, ¬ x.event.records) :
    (AllSettled log → (∃ x ∈ log, x.event.ended) →
      w.state.InStep deps.sha256 v ∨ w.state.HeldBack) ∧
      ∀ x ∈ log, ∀ call path, x.event = .settled call (.ok (.writeBack (.written path))) →
        ¬ Overtaken log x.task → x.state.InStep deps.sha256 v := by
  let cond : Device → DeviceEvent → Prop := fun s e =>
    e.Fresh s ∧ e.Careful deps.sha256 v s ∧ ¬ e.records
  let P : (Nat → Option Place) → Device → List (Record Device DeviceEvent) → Prop :=
    fun places s log => Following deps.sha256 v start.moves True places s log ∧
      Answered deps.sha256 v places s log ∧ Settling places log
  have hinitial : P (fun _ => none) start [] := by
    refine ⟨⟨hhead, Nat.le_refl _, by simp, ?_⟩, ⟨by simp, by simp, by simp⟩,
      ⟨by simp, by simp, by simp, by simp⟩⟩
    exact Or.inr (Or.inr (Or.inr ⟨trivial, rfl, by simp⟩))
  have hstep : ∀ (places : Nat → Option Place) (i : Nat) g s log events t g',
      places i = some g → P places s log → s.Sound deps.sha256 v → t.Sound deps.sha256 v →
      (∀ e ∈ events, cond s e) → ServiceSteps deps.sha256 v g s events t g' →
      P (Function.update places i (some g')) t (log ++ events.map (⟨i, s, ·⟩)) := by
    intro places i g s log events t g' hi ⟨hfollow, hanswer, hsettling⟩ hs ht hcond hstep
    have hcareful : ∀ e ∈ events, e.Careful deps.sha256 v s := fun e he => (hcond e he).2.1
    have hnew : ∀ e ∈ events, ¬ e.records := fun e he => (hcond e he).2.2
    exact ⟨hfollow.step hi hs ht hcareful hnew hstep,
      hanswer.step (hfollow.knows _ _ hi) hi hs hcareful hstep, hsettling.step hi hstep⟩
  have hbegin : ∀ (places : Nat → Option Place) (i : Nat) s log, places i = none →
      P places s log → P (Function.update places i (some .first)) s log :=
    fun _ i _ _ hi ⟨hfollow, hanswer, hsettling⟩ =>
      ⟨hfollow.start hi, hanswer.start i, hsettling.start hi⟩
  obtain ⟨places, hfollow, hanswer, hsettling⟩ :=
    VaultServices.trace_holds (fun _ _ h => h.1.freshIds) (fun _ _ h => by simpa using h) hbegin hstep
      hstart hinitial h fun x hx => ⟨(hcareful x hx).1, (hcareful x hx).2, hunsaved x hx⟩
  refine ⟨fun hall hended => hfollow.settled hsettling hall fun _ => hended,
    fun x hx call path hevent hnot => ?_⟩
  exact (hanswer.written x hx call path hevent).resolve_right hnot

/-- A vault of two versions. -/
def twoVersions : List Operation :=
  [.importVault ⟨"home"⟩ ⟨⟨"h1"⟩, 1⟩ "home.kdbx" [1] (some ⟨"home.kdbx"⟩),
    .recordLocalChange ⟨⟨"h2"⟩, 2⟩ ⟨"home"⟩ [1, 1]]

def home : Tracked := ⟨⟨"home"⟩, some ⟨"home.kdbx"⟩⟩

def laptopDeps : ServiceDeps := ⟨plainDeps, .desktop⟩

/-- A laptop whose file holds the second version. -/
def laptop : Device :=
  { Device.of (storeAfter twoVersions) ⟨"home"⟩ with
    files := fun path => if path = ⟨"home.kdbx"⟩ then some [1, 1] else none }

theorem sound_laptop : laptop.Sound laptopDeps.sha256 home :=
  ⟨wellFormed_storeAfter twoVersions rfl, rfl, _, rfl, rfl⟩

theorem at_laptop : ∃ path head hash, laptop.At home path head hash :=
  ⟨_, ⟨"h2"⟩, _, rfl, ⟨_, rfl, rfl⟩, _, rfl, rfl⟩

/-- The first version is put back in use, and then `applyPendingUpdate` finds the file written. -/
theorem never_silently_out_of_step_promoted : ∃ moves w log,
    (⟨laptop, []⟩ : Pool Device DeviceEvent Failure).trace
      (services laptopDeps fun _ call => !call.writesOut) moves = some (w, log) ∧
      (w.state.InStep laptopDeps.sha256 home ∨ w.state.HeldBack) ∧
      w.state.files ⟨"home.kdbx"⟩ = some [1] := by
  let moves : List (Move ServiceCommand) :=
    .start (.call (.promote 3 ⟨"h1"⟩)) :: List.replicate 16 (.resume 0) ++
      .start (.call .applyPendingUpdate) :: List.replicate 6 (.resume 1)
  have hrun : ((⟨laptop, []⟩ : Pool Device DeviceEvent Failure).trace
      (services laptopDeps fun _ call => !call.writesOut) moves).map (fun (w, log) =>
        (w.state.files ⟨"home.kdbx"⟩, decide (AllSettled log), decide (∃ x ∈ log, x.event.ended),
          decide (∀ x ∈ log, x.event.Fresh x.state ∧ x.event.Careful laptopDeps.sha256 home x.state),
          decide (∀ x ∈ log, ¬ x.event.records))) = some (some [1], true, true, true, true) := by
    decide +kernel
  obtain ⟨⟨w, log⟩, htrace, hends⟩ := Option.map_eq_some_iff.mp hrun
  simp only [Prod.mk.injEq, decide_eq_true_eq] at hends
  obtain ⟨hfile, hall, hended, hcareful, hunsaved⟩ := hends
  refine ⟨moves, w, log, htrace, ?_, hfile⟩
  exact (never_silently_out_of_step laptopDeps home laptop sound_laptop at_laptop moves w log htrace
    hcareful hunsaved).1 hall hended

/-- The lock file appears after `materializeCurrentVersion` has looked for it and before
`writeVaultFileAtomic` does. -/
theorem out_of_step_lockedBetween : ∃ moves w log,
    (⟨laptop, []⟩ : Pool Device DeviceEvent Failure).trace
      (services laptopDeps fun _ call => !call.writesOut) moves = some (w, log) ∧
      laptop.Sound laptopDeps.sha256 home ∧ (∀ x ∈ log, ¬ x.event.records) ∧ AllSettled log ∧
      (∃ x ∈ log, x.event.ended) ∧ ¬ w.state.InStep laptopDeps.sha256 home ∧
      ¬ w.state.HeldBack := by
  let moves : List (Move ServiceCommand) :=
    .start (.call (.promote 3 ⟨"h1"⟩)) :: List.replicate 10 (.resume 0) ++
      .start (.lock ⟨"home.kdbx"⟩ true) :: List.replicate 4 (.resume 0)
  have hrun : ((⟨laptop, []⟩ : Pool Device DeviceEvent Failure).trace
      (services laptopDeps fun _ call => !call.writesOut) moves).map (fun (w, log) =>
        (decide (∀ x ∈ log, ¬ x.event.records), decide (AllSettled log),
          decide (∃ x ∈ log, x.event.ended), decide (w.state.InStep laptopDeps.sha256 home),
          decide w.state.HeldBack)) = some (true, true, true, false, false) := by
    decide +kernel
  obtain ⟨⟨w, log⟩, htrace, hends⟩ := Option.map_eq_some_iff.mp hrun
  simp only [Prod.mk.injEq, decide_eq_true_eq, decide_eq_false_iff_not] at hends
  obtain ⟨hunsaved, hall, hended, hstep, hback⟩ := hends
  exact ⟨moves, w, log, htrace, sound_laptop, hunsaved, hall, hended, hstep, hback⟩

/-- Whatever calls bring the file up to date while others move the head and the watcher delivers
what was written: nothing is recorded that the user has not saved, and once all calls have settled
and no update waits for the file to be closed, the file holds the bytes of the head. Each write must
put the bytes of the head of that moment in place, as above; the file must hold the head's bytes
whenever it is read to be recorded, and no head may move before they are compared. -/
theorem no_stale_write_recorded (deps : ServiceDeps) (v : Tracked) (start : Device)
    (hstart : start.Sound deps.sha256 v) (hhead : ∃ path head hash, start.At v path head hash)
    (hin : start.InStep deps.sha256 v ∨ start.HeldBack)
    (moves : List (Move ServiceCommand)) (w : Pool Device DeviceEvent Failure)
    (log : List (Record Device DeviceEvent))
    (h : (⟨start, []⟩ : Pool Device DeviceEvent Failure).trace
      (services deps fun _ call => !call.writesOut) moves = some (w, log))
    (hcond : ∀ x ∈ log, x.event.Fresh x.state ∧ x.event.Careful deps.sha256 v x.state ∧
      x.event.Timely deps.sha256 v x.state) :
    (∀ x ∈ log, ¬ x.event.records) ∧
      (AllSettled log → w.state.unlockTimer = false → w.state.InStep deps.sha256 v) := by
  let cond : Device → DeviceEvent → Prop := fun s e =>
    e.Fresh s ∧ e.Careful deps.sha256 v s ∧ e.Timely deps.sha256 v s
  let P : (Nat → Option Place) → Device → List (Record Device DeviceEvent) → Prop :=
    fun places s log => Following deps.sha256 v start.moves False places s log ∧
      Settling places log ∧
      (∀ (i : Nat) g, places i = some g → g.stage.Unsaved deps.sha256 v s) ∧
      ∀ x ∈ log, ¬ x.event.records
  have hinitial : P (fun _ => none) start [] := by
    refine ⟨⟨hhead, Nat.le_refl _, by simp, hin.imp_right Or.inl⟩,
      ⟨by simp, by simp, by simp, by simp⟩, by simp, by simp⟩
  have hstep : ∀ (places : Nat → Option Place) (i : Nat) g s log events t g',
      places i = some g → P places s log → s.Sound deps.sha256 v → t.Sound deps.sha256 v →
      (∀ e ∈ events, cond s e) → ServiceSteps deps.sha256 v g s events t g' →
      P (Function.update places i (some g')) t (log ++ events.map (⟨i, s, ·⟩)) := by
    intro places i g s log events t g' hi ⟨hfollow, hsettling, hunsaved, hnone⟩ hs ht hcond hstep
    have hcareful : ∀ e ∈ events, e.Careful deps.sha256 v s := fun e he => (hcond e he).2.1
    have hgrows := (hstep.keeps hs).2.grows
    have hstays : ∀ {g : Stage}, g.Unsaved deps.sha256 v s → g.Unsaved deps.sha256 v t :=
      (hstep.steady hs hcareful).unsaved hgrows hfollow.head
    obtain ⟨hnew, hknows⟩ :=
      hstep.unsaved (hunsaved i g hi) (fun e he => (hcond e he).2.2) hstays
    refine ⟨hfollow.step hi hs ht hcareful hnew hstep, hsettling.step hi hstep, ?_,
      fun x hx => ?_⟩
    · refine forall_update ?_ fun j k _ hj => ?_
      · exact hknows
      · exact hstays (hunsaved j k hj)
    · rcases List.mem_append.mp hx with hx | hx
      · exact hnone x hx
      · obtain ⟨e, he, rfl⟩ := List.mem_map.mp hx
        exact hnew e he
  have hbegin : ∀ (places : Nat → Option Place) (i : Nat) s log, places i = none →
      P places s log → P (Function.update places i (some .first)) s log := by
    intro places i s log hi ⟨hfollow, hsettling, hunsaved, hnone⟩
    refine ⟨hfollow.start hi, hsettling.start hi, ?_, hnone⟩
    refine forall_update ?_ fun j k _ hj => ?_
    · trivial
    · exact hunsaved j k hj
  obtain ⟨places, hfollow, hsettling, -, hnone⟩ :=
    VaultServices.trace_holds (fun _ _ h => h.1.freshIds) (fun _ _ h => by simpa using h) hbegin hstep
      hstart hinitial h hcond
  refine ⟨hnone, fun hall htimer => ?_⟩
  refine (hfollow.settled hsettling hall False.elim).resolve_right fun hback => ?_
  rw [hback.2] at htimer
  cases htimer

/-- `applyPendingUpdate` overlaps with the writing of the first version, and the watcher delivers
what was written. -/
theorem no_stale_write_recorded_delivered : ∃ moves w log,
    (⟨laptop, []⟩ : Pool Device DeviceEvent Failure).trace
      (services laptopDeps fun _ call => !call.writesOut) moves = some (w, log) ∧
      w.state.files ⟨"home.kdbx"⟩ = some [1] ∧ (∀ x ∈ log, ¬ x.event.records) ∧
      w.state.InStep laptopDeps.sha256 home := by
  let moves : List (Move ServiceCommand) :=
    .start (.call (.promote 3 ⟨"h1"⟩)) :: List.replicate 12 (.resume 0) ++
      .start (.call .applyPendingUpdate) :: List.replicate 4 (.resume 1) ++
      List.replicate 4 (.resume 0) ++ List.replicate 8 (.resume 1) ++
      .start (.call (.deliver ⟨⟨"h3"⟩, 4⟩ ⟨"home.kdbx"⟩)) :: List.replicate 3 (.resume 2)
  have hrun : ((⟨laptop, []⟩ : Pool Device DeviceEvent Failure).trace
      (services laptopDeps fun _ call => !call.writesOut) moves).map (fun (w, log) =>
        (w.state.files ⟨"home.kdbx"⟩, w.state.unlockTimer, decide (AllSettled log),
          decide (∀ x ∈ log, x.event.Fresh x.state ∧ x.event.Careful laptopDeps.sha256 home x.state ∧
            x.event.Timely laptopDeps.sha256 home x.state))) = some (some [1], false, true, true) := by
    decide +kernel
  obtain ⟨⟨w, log⟩, htrace, hends⟩ := Option.map_eq_some_iff.mp hrun
  simp only [Prod.mk.injEq, decide_eq_true_eq] at hends
  obtain ⟨hfile, htimer, hall, hcond⟩ := hends
  obtain ⟨hnone, hin⟩ := no_stale_write_recorded laptopDeps home laptop sound_laptop at_laptop
    (Or.inl (by decide +kernel)) moves w log htrace hcond
  exact ⟨moves, w, log, htrace, hfile, hnone, hin hall htimer⟩

/-- The second version is put back in use while the first one is about to be written; the file that
is then written is older than the head, and the watcher delivers it as a save. -/
theorem stale_write_recorded : ∃ moves w log,
    (⟨laptop, []⟩ : Pool Device DeviceEvent Failure).trace
      (services laptopDeps fun _ call => !call.writesOut) moves = some (w, log) ∧
      laptop.Sound laptopDeps.sha256 home ∧ laptop.InStep laptopDeps.sha256 home ∧
      AllSettled log ∧ w.state.locked ⟨"home.kdbx"⟩ = false ∧ ∃ x ∈ log, x.event.records := by
  let moves : List (Move ServiceCommand) :=
    .start (.call (.promote 3 ⟨"h1"⟩)) :: List.replicate 12 (.resume 0) ++
      .start (.call (.promote 4 ⟨"h2"⟩)) :: List.replicate 10 (.resume 1) ++
      List.replicate 4 (.resume 0) ++
      .start (.call (.deliver ⟨⟨"h3"⟩, 5⟩ ⟨"home.kdbx"⟩)) :: List.replicate 9 (.resume 2)
  have hrun : ((⟨laptop, []⟩ : Pool Device DeviceEvent Failure).trace
      (services laptopDeps fun _ call => !call.writesOut) moves).map (fun (w, log) =>
        (w.state.locked ⟨"home.kdbx"⟩, decide (AllSettled log),
          decide (∃ x ∈ log, x.event.records))) = some (false, true, true) := by
    decide +kernel
  obtain ⟨⟨w, log⟩, htrace, hends⟩ := Option.map_eq_some_iff.mp hrun
  simp only [Prod.mk.injEq, decide_eq_true_eq] at hends
  obtain ⟨hlocked, hall, hrecords⟩ := hends
  exact ⟨moves, w, log, htrace, sound_laptop, by decide +kernel, hall, hlocked, hrecords⟩

end PassVault
