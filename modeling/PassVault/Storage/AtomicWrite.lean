import PassVault.Core.Model

/-!
# Writing a file in one piece

`writeVaultFileAtomic` of `packages/storage-node/src/vaultFile.ts` and `FileBlobStore.put` of
`packages/storage-node/src/blobStore.ts`, one call each, with every way in which the steps of the
call can end. The name of the temporary file is a fresh UUID, so the file belongs to its call. A
rename is atomic, and an open that fails creates nothing.
-/

namespace PassVault.AtomicWrite

/-- The target of the call, its temporary file, and the lock file beside a vault. -/
structure WriteFolder where
  target : Option Bytes
  temp : Option Bytes
  locked : Bool
deriving DecidableEq, Repr

/-- The file-system calls that a write makes. -/
inductive FileStep where
  | stat
  | mkdir
  | open
  | write
  | sync
  | close
  | rename
  | rm
deriving DecidableEq, Repr

/-- How such a call ends. Of a write that fails or is cut short the first `room` bytes are in the
file; every other call that fails or is cut short does nothing. -/
inductive StepOutcome where
  | done
  | fails (room : Nat)
  /-- The process stops in it. -/
  | stops (room : Nat)
  /-- The process stops as soon as it is done. -/
  | stopsAfter
deriving DecidableEq, Repr

inductive Ending (α : Type) where
  | returns (a : α)
  | throws
  | stops
deriving DecidableEq, Repr

/-- A part of a call, from one folder to the next. -/
abbrev FileCall (α : Type) := WriteFolder → Ending α × WriteFolder

namespace FileCall

variable {α β : Type}

def pure (a : α) : FileCall α := fun folder => (.returns a, folder)

def raise : FileCall α := fun folder => (.throws, folder)

def bind (x : FileCall α) (f : α → FileCall β) : FileCall β := fun folder =>
  match x folder with
  | (.returns a, folder) => f a folder
  | (.throws, folder) => (.throws, folder)
  | (.stops, folder) => (.stops, folder)

instance : Monad FileCall where
  pure := FileCall.pure
  bind := FileCall.bind

/-- `try … finally …`. What the clean-up throws takes the place of what was thrown before. -/
def tryFinally (body : FileCall α) (cleanup : FileCall Unit) : FileCall α := fun folder =>
  match body folder with
  | (.returns a, folder) => (cleanup.bind fun _ => FileCall.pure a) folder
  | (.throws, folder) => (cleanup.bind fun _ => raise) folder
  | (.stops, folder) => (.stops, folder)

/-- `try … catch …`. -/
def tryCatch (body : FileCall α) (handler : FileCall α) : FileCall α := fun folder =>
  match body folder with
  | (.throws, folder) => handler folder
  | ending => ending

/-- One file-system call: what it does when it is done, and when it is not. -/
def perform (outcome : StepOutcome) (done : WriteFolder → WriteFolder)
    (partly : Nat → WriteFolder → WriteFolder) : FileCall Unit := fun folder =>
  match outcome with
  | .done => (.returns (), done folder)
  | .fails room => (.throws, partly room folder)
  | .stops room => (.stops, partly room folder)
  | .stopsAfter => (.stops, done folder)

end FileCall

section Calls

variable (env : FileStep → StepOutcome)

def openTemp : FileCall Unit :=
  .perform (env .open) (fun folder => { folder with temp := some [] }) fun _ folder => folder

def writeTemp (bytes : Bytes) : FileCall Unit :=
  .perform (env .write) (fun folder => { folder with temp := some bytes })
    fun room folder => { folder with temp := some (bytes.take room) }

def syncTemp : FileCall Unit := .perform (env .sync) id fun _ folder => folder

def closeTemp : FileCall Unit := .perform (env .close) id fun _ folder => folder

def renameTemp : FileCall Unit :=
  .perform (env .rename) (fun folder => { folder with target := folder.temp, temp := none })
    fun _ folder => folder

/-- `rm(tempPath, { force: true })`. -/
def removeTemp : FileCall Unit :=
  .perform (env .rm) (fun folder => { folder with temp := none }) fun _ folder => folder

/-- A `stat` that fails is taken for a file that is not there. -/
def statFile (there : WriteFolder → Bool) : FileCall Bool :=
  FileCall.tryCatch ((FileCall.perform (env .stat) id fun _ folder => folder).bind fun _ folder =>
    (.returns (there folder), folder)) (FileCall.pure false)

/-- The lines that both functions share, up to the close. -/
def fillTemp (bytes : Bytes) : FileCall Unit := do
  openTemp env
  FileCall.tryFinally (do
    writeTemp env bytes
    syncTemp env) (closeTemp env)

/-- The lines that both functions share after that. -/
def moveTemp : FileCall Unit :=
  FileCall.tryCatch (renameTemp env) (do
    removeTemp env
    FileCall.raise)

def replaceTarget (bytes : Bytes) : FileCall Unit := do
  fillTemp env bytes
  moveTemp env

inductive WriteOutcome where
  | written
  | refusedLocked
deriving DecidableEq, Repr

def isVaultLocked : FileCall Bool := statFile env (·.locked)

/-- `ignoreLock !== true && (await isVaultLocked(vaultPath))`. -/
def lockStands (ignoreLock : Bool) : FileCall Bool :=
  if ignoreLock then FileCall.pure false else isVaultLocked env

def writeVaultFileAtomic (bytes : Bytes) (ignoreLock : Bool) : FileCall WriteOutcome := do
  let locked ← lockStands env ignoreLock
  if locked then
    return .refusedLocked
  else
    replaceTarget env bytes
    return .written

def makeShard : FileCall Unit := .perform (env .mkdir) id fun _ folder => folder

/-- `put`, up to the hash that it returns. The target is the blob in its place. -/
def putBlob (bytes : Bytes) : FileCall Unit := do
  let has ← statFile env (·.target.isSome)
  if has then
    return ()
  else
    makeShard env
    replaceTarget env bytes

end Calls

/-! ## What is left behind -/

/-- The target is whole whatever happened; where the call reports an error, the target is as it was
and the temporary file of the call is gone. -/
structure NoTrace {α : Type} (bytes : Bytes) (folder : WriteFolder)
    (ending : Ending α × WriteFolder) : Prop where
  whole : ending.2.target = folder.target ∨ ending.2.target = some bytes
  clean : ending.1 = .throws → ending.2.target = folder.target ∧ ending.2.temp = none

def StepOutcome.isDone : StepOutcome → Prop
  | .done => True
  | _ => False

/-- The call fails. -/
def StepOutcome.isFailed : StepOutcome → Prop
  | .fails _ => True
  | _ => False

def StepOutcome.goesOn : StepOutcome → Prop
  | .done | .fails _ => True
  | _ => False

/-- The temporary file is open, and its write, its sync or its close fails; the process goes on to
report it. -/
def FillFails (env : FileStep → StepOutcome) : Prop :=
  (env .open).isDone ∧
    ((((env .write).isFailed ∨ ((env .write).isDone ∧ (env .sync).isFailed)) ∧ (env .close).goesOn) ∨
      ((env .write).isDone ∧ (env .sync).isDone ∧ (env .close).isFailed))

def FillDone (env : FileStep → StepOutcome) : Prop :=
  (env .open).isDone ∧ (env .write).isDone ∧ (env .sync).isDone ∧ (env .close).isDone

/-- The rename fails, and so does the removal of the temporary file. -/
def MoveFails (env : FileStep → StepOutcome) : Prop :=
  (env .rename).isFailed ∧ (env .rm).isFailed

/-- An error is reported over a temporary file that is still there. -/
def LeavesTemp (env : FileStep → StepOutcome) : Prop :=
  FillFails env ∨ (FillDone env ∧ MoveFails env)

@[simp] theorem FileCall.bind_eq {α β : Type} (x : FileCall α) (f : α → FileCall β)
    (folder : WriteFolder) : (x >>= f) folder = FileCall.bind x f folder := rfl

@[simp] theorem FileCall.pure_eq {α : Type} (a : α) (folder : WriteFolder) :
    (Pure.pure a : FileCall α) folder = (.returns a, folder) := rfl

/-- How the write and the sync of the temporary file can end. -/
inductive Wrote (env : FileStep → StepOutcome) (bytes : Bytes) (folder : WriteFolder) :
    Ending Unit × WriteFolder → Prop where
  | partly (content : Bytes)
      (h : (env .write).isFailed ∨ ((env .write).isDone ∧ (env .sync).isFailed)) :
      Wrote env bytes folder (.throws, { folder with temp := some content })
  | stopped (content : Bytes) (hwrite : ¬ (env .write).isFailed)
      (hsync : (env .write).isDone → ¬ (env .sync).goesOn) :
      Wrote env bytes folder (.stops, { folder with temp := some content })
  | wrote (hwrite : (env .write).isDone) (hsync : (env .sync).isDone) :
      Wrote env bytes folder (.returns (), { folder with temp := some bytes })

theorem writeTemp_wrote (env : FileStep → StepOutcome) (bytes : Bytes) (folder : WriteFolder) :
    Wrote env bytes folder ((do
      writeTemp env bytes
      syncTemp env : FileCall Unit) folder) := by
  simp only [FileCall.bind_eq, FileCall.bind, writeTemp, FileCall.perform]
  cases hwrite : env .write with
  | fails room => exact .partly _ (.inl (by simp [hwrite, StepOutcome.isFailed]))
  | stops room =>
    exact .stopped _ (by simp [hwrite, StepOutcome.isFailed]) (by simp [hwrite, StepOutcome.isDone])
  | stopsAfter =>
    exact .stopped _ (by simp [hwrite, StepOutcome.isFailed]) (by simp [hwrite, StepOutcome.isDone])
  | done =>
    have hdone : (env .write).isDone := by simp [hwrite, StepOutcome.isDone]
    have hnot : ¬ (env .write).isFailed := by simp [hwrite, StepOutcome.isFailed]
    simp only [syncTemp, FileCall.perform]
    cases hsync : env .sync with
    | fails room => exact .partly _ (.inr ⟨hdone, by simp [hsync, StepOutcome.isFailed]⟩)
    | stops room => exact .stopped _ hnot fun _ => by simp [hsync, StepOutcome.goesOn]
    | stopsAfter => exact .stopped _ hnot fun _ => by simp [hsync, StepOutcome.goesOn]
    | done => exact .wrote hdone (by simp [hsync, StepOutcome.isDone])

theorem not_failed_of_done {outcome : StepOutcome} (h : outcome.isDone) : ¬ outcome.isFailed := by
  cases outcome <;> simp_all [StepOutcome.isDone, StepOutcome.isFailed]

theorem goesOn_iff {outcome : StepOutcome} :
    outcome.goesOn ↔ outcome.isDone ∨ outcome.isFailed := by
  cases outcome <;> simp [StepOutcome.isDone, StepOutcome.isFailed, StepOutcome.goesOn]

/-- How the filling of the temporary file can end. -/
inductive Filled (env : FileStep → StepOutcome) (bytes : Bytes) (folder : WriteFolder) :
    Ending Unit × WriteFolder → Prop where
  | unopened (hfails : ¬ FillFails env) (hdone : ¬ FillDone env) :
      Filled env bytes folder (.throws, folder)
  | partly (content : Bytes) (hfails : FillFails env) :
      Filled env bytes folder (.throws, { folder with temp := some content })
  | stopped (temp : Option Bytes) (hfails : ¬ FillFails env) (hdone : ¬ FillDone env) :
      Filled env bytes folder (.stops, { folder with temp })
  | filled (hfails : ¬ FillFails env) (hdone : FillDone env) :
      Filled env bytes folder (.returns (), { folder with temp := some bytes })

theorem fillTemp_filled (env : FileStep → StepOutcome) (bytes : Bytes) (folder : WriteFolder) :
    Filled env bytes folder (fillTemp env bytes folder) := by
  simp only [fillTemp, FileCall.bind_eq, FileCall.bind, openTemp, FileCall.perform]
  cases hopen : env .open with
  | fails room =>
    have hnot : ¬ (env .open).isDone := by simp [hopen, StepOutcome.isDone]
    exact .unopened (fun h => hnot h.1) fun h => hnot h.1
  | stops room =>
    have hnot : ¬ (env .open).isDone := by simp [hopen, StepOutcome.isDone]
    exact .stopped folder.temp (fun h => hnot h.1) fun h => hnot h.1
  | stopsAfter =>
    have hnot : ¬ (env .open).isDone := by simp [hopen, StepOutcome.isDone]
    exact .stopped _ (fun h => hnot h.1) fun h => hnot h.1
  | done =>
    have hopened : (env .open).isDone := by simp [hopen, StepOutcome.isDone]
    have hwrote := writeTemp_wrote env bytes { folder with temp := some [] }
    simp only [FileCall.tryFinally]
    generalize (do
      writeTemp env bytes
      syncTemp env : FileCall Unit) { folder with temp := some [] } = wrote at hwrote
    cases hwrote with
    | partly content hpartly =>
      simp only [FileCall.bind, closeTemp, FileCall.perform, FileCall.raise]
      have hdone : ¬ FillDone env := by
        intro h
        obtain ⟨-, hwrite, hsync, -⟩ := h
        rcases hpartly with hfailed | ⟨-, hfailed⟩
        · exact not_failed_of_done hwrite hfailed
        · exact not_failed_of_done hsync hfailed
      have hclosed : ¬ (env .close).goesOn → ¬ FillFails env := by
        intro hclose h
        rcases h.2 with ⟨-, hgoes⟩ | ⟨-, -, hfailed⟩
        · exact hclose hgoes
        · exact hclose (goesOn_iff.mpr (.inr hfailed))
      cases hclose : env .close with
      | done => exact .partly _ ⟨hopened, .inl ⟨hpartly, by simp [hclose, StepOutcome.goesOn]⟩⟩
      | fails room => exact .partly _ ⟨hopened, .inl ⟨hpartly, by simp [hclose, StepOutcome.goesOn]⟩⟩
      | stops room => exact .stopped _ (hclosed (by simp [hclose, StepOutcome.goesOn])) hdone
      | stopsAfter => exact .stopped _ (hclosed (by simp [hclose, StepOutcome.goesOn])) hdone
    | stopped content hwrite hsync =>
      apply Filled.stopped
      · intro h
        rcases h.2 with ⟨hfailed | ⟨hdone, hfailed⟩, -⟩ | ⟨hdone, hsynced, -⟩
        · exact hwrite hfailed
        · exact hsync hdone (goesOn_iff.mpr (.inr hfailed))
        · exact hsync hdone (goesOn_iff.mpr (.inl hsynced))
      · intro h
        exact hsync h.2.1 (goesOn_iff.mpr (.inl h.2.2.1))
    | wrote hwrite hsync =>
      simp only [FileCall.bind, closeTemp, FileCall.perform, FileCall.pure]
      have hfails : ¬ (env .close).isFailed → ¬ FillFails env := by
        intro hclose h
        rcases h.2 with ⟨hfailed | ⟨-, hfailed⟩, -⟩ | ⟨-, -, hfailed⟩
        · exact not_failed_of_done hwrite hfailed
        · exact not_failed_of_done hsync hfailed
        · exact hclose hfailed
      cases hclose : env .close with
      | done =>
        exact .filled (hfails (by simp [hclose, StepOutcome.isFailed]))
          ⟨hopened, hwrite, hsync, by simp [hclose, StepOutcome.isDone]⟩
      | fails room =>
        exact .partly bytes ⟨hopened, .inr ⟨hwrite, hsync, by simp [hclose, StepOutcome.isFailed]⟩⟩
      | stops room =>
        apply Filled.stopped _ (hfails (by simp [hclose, StepOutcome.isFailed]))
        intro h
        simpa [hclose, StepOutcome.isDone] using h.2.2.2
      | stopsAfter =>
        apply Filled.stopped _ (hfails (by simp [hclose, StepOutcome.isFailed]))
        intro h
        simpa [hclose, StepOutcome.isDone] using h.2.2.2

/-- A filled temporary file is moved into place; where that fails it is removed, or left over. -/
theorem moveTemp_noTrace {env : FileStep → StepOutcome} {bytes : Bytes} {folder : WriteFolder} :
    NoTrace bytes folder (moveTemp env { folder with temp := some bytes }) ↔ ¬ MoveFails env := by
  have hrenamed : ¬ (env .rename).isFailed → ¬ MoveFails env := fun hnot h => hnot h.1
  cases hrename : env .rename with
  | done =>
    have heq : moveTemp env { folder with temp := some bytes } =
        (.returns (), { folder with target := some bytes, temp := none }) := by
      simp [moveTemp, renameTemp, FileCall.tryCatch, FileCall.perform, hrename]
    rw [heq]
    exact iff_of_true ⟨.inr rfl, nofun⟩ (hrenamed (by simp [hrename, StepOutcome.isFailed]))
  | stops room =>
    have heq : moveTemp env { folder with temp := some bytes } =
        (.stops, { folder with temp := some bytes }) := by
      simp [moveTemp, renameTemp, FileCall.tryCatch, FileCall.perform, hrename]
    rw [heq]
    exact iff_of_true ⟨.inl rfl, nofun⟩ (hrenamed (by simp [hrename, StepOutcome.isFailed]))
  | stopsAfter =>
    have heq : moveTemp env { folder with temp := some bytes } =
        (.stops, { folder with target := some bytes, temp := none }) := by
      simp [moveTemp, renameTemp, FileCall.tryCatch, FileCall.perform, hrename]
    rw [heq]
    exact iff_of_true ⟨.inr rfl, nofun⟩ (hrenamed (by simp [hrename, StepOutcome.isFailed]))
  | fails room =>
    have hfailed : (env .rename).isFailed := by simp [hrename, StepOutcome.isFailed]
    have heq : moveTemp env { folder with temp := some bytes } =
        FileCall.bind (removeTemp env) (fun _ => FileCall.raise)
          { folder with temp := some bytes } := by
      simp [moveTemp, renameTemp, FileCall.tryCatch, FileCall.perform, hrename]
    rw [heq]
    simp only [FileCall.bind, removeTemp, FileCall.perform, FileCall.raise]
    cases hrm : env .rm with
    | done =>
      exact iff_of_true ⟨.inl rfl, fun _ => ⟨rfl, rfl⟩⟩ fun h => by
        simpa [hrm, StepOutcome.isFailed] using h.2
    | fails room =>
      apply iff_of_false
      · intro h
        have htemp := (h.clean rfl).2
        cases htemp
      · intro h
        exact h ⟨hfailed, by simp [hrm, StepOutcome.isFailed]⟩
    | stops room =>
      exact iff_of_true ⟨.inl rfl, nofun⟩ fun h => by simpa [hrm, StepOutcome.isFailed] using h.2
    | stopsAfter =>
      exact iff_of_true ⟨.inl rfl, nofun⟩ fun h => by simpa [hrm, StepOutcome.isFailed] using h.2

theorem replaceTarget_noTrace (env : FileStep → StepOutcome) (bytes : Bytes) {folder : WriteFolder}
    (hfresh : folder.temp = none) :
    NoTrace bytes folder (replaceTarget env bytes folder) ↔ ¬ LeavesTemp env := by
  have hfill := fillTemp_filled env bytes folder
  simp only [replaceTarget, FileCall.bind_eq, FileCall.bind]
  generalize fillTemp env bytes folder = filled at hfill
  cases hfill with
  | unopened hfails hdone =>
    exact iff_of_true ⟨.inl rfl, fun _ => ⟨rfl, hfresh⟩⟩ fun h =>
      h.elim hfails fun h => hdone h.1
  | partly content hfails =>
    apply iff_of_false
    · intro h
      have htemp := (h.clean rfl).2
      cases htemp
    · intro h
      exact h (.inl hfails)
  | stopped temp hfails hdone =>
    exact iff_of_true ⟨.inl rfl, nofun⟩ fun h => h.elim hfails fun h => hdone h.1
  | filled hfails hdone =>
    rw [moveTemp_noTrace, LeavesTemp]
    simp [hfails, hdone]

/-- `writeVaultFileAtomic` gets to the open. -/
def VaultOpens (env : FileStep → StepOutcome) (ignoreLock : Bool) (folder : WriteFolder) : Prop :=
  ignoreLock = true ∨ (env .stat).isFailed ∨ ((env .stat).isDone ∧ folder.locked = false)

/-- `put` gets to the open. -/
def BlobOpens (env : FileStep → StepOutcome) (folder : WriteFolder) : Prop :=
  ((env .stat).isFailed ∨ ((env .stat).isDone ∧ folder.target = none)) ∧ (env .mkdir).isDone

/-- Looking for a file changes nothing. -/
theorem statFile_eq (env : FileStep → StepOutcome) (there : WriteFolder → Bool)
    (folder : WriteFolder) : statFile env there folder =
      (match env .stat with
        | .done => .returns (there folder)
        | .fails _ => .returns false
        | .stops _ | .stopsAfter => .stops, folder) := by
  cases hstat : env .stat <;>
    simp [statFile, FileCall.tryCatch, FileCall.bind, FileCall.perform, FileCall.pure, hstat]

theorem noTrace_unchanged {α : Type} {bytes : Bytes} {folder : WriteFolder} {ending : Ending α}
    (hfresh : folder.temp = none) : NoTrace bytes folder (ending, folder) :=
  ⟨.inl rfl, fun _ => ⟨rfl, hfresh⟩⟩

/-- What follows a write that returned does not matter. -/
theorem noTrace_after {α : Type} {bytes : Bytes} {folder : WriteFolder} {x : FileCall Unit} {a : α} :
    NoTrace bytes folder ((do
      x
      return a : FileCall α) folder) ↔ NoTrace bytes folder (x folder) := by
  simp only [FileCall.bind_eq, FileCall.bind]
  generalize x folder = ending
  obtain ⟨ending, folder'⟩ := ending
  cases ending with
  | returns u =>
    exact ⟨fun h => ⟨h.whole, nofun⟩, fun h => ⟨h.whole, nofun⟩⟩
  | throws => exact ⟨fun h => ⟨h.whole, fun _ => h.clean rfl⟩, fun h => ⟨h.whole, fun _ => h.clean rfl⟩⟩
  | stops => exact ⟨fun h => ⟨h.whole, nofun⟩, fun h => ⟨h.whole, nofun⟩⟩

theorem writeVaultFileAtomic_noTrace (env : FileStep → StepOutcome) (bytes : Bytes)
    (ignoreLock : Bool) {folder : WriteFolder} (hfresh : folder.temp = none) :
    NoTrace bytes folder (writeVaultFileAtomic env bytes ignoreLock folder) ↔
      ¬ (VaultOpens env ignoreLock folder ∧ LeavesTemp env) := by
  have hwrite := (noTrace_after (a := WriteOutcome.written)).trans
    (replaceTarget_noTrace env bytes hfresh)
  have hopens (hlook : lockStands env ignoreLock folder = (.returns false, folder)) (hopen : VaultOpens env ignoreLock folder) :
      NoTrace bytes folder (writeVaultFileAtomic env bytes ignoreLock folder) ↔
        ¬ (VaultOpens env ignoreLock folder ∧ LeavesTemp env) := by
    have heq : writeVaultFileAtomic env bytes ignoreLock folder = (do
        replaceTarget env bytes
        return WriteOutcome.written : FileCall WriteOutcome) folder := by
      rw [writeVaultFileAtomic, FileCall.bind_eq, FileCall.bind, hlook]
      rfl
    rw [heq, hwrite]
    simp [hopen]
  cases hignore : ignoreLock with
  | true =>
    rw [hignore] at hopens
    exact hopens rfl (.inl rfl)
  | false =>
    rw [hignore] at hopens
    have hlook := statFile_eq env (·.locked) folder
    cases hstat : env .stat with
    | fails room =>
      rw [hstat] at hlook
      exact hopens hlook (.inr (.inl (by simp [hstat, StepOutcome.isFailed])))
    | done =>
      rw [hstat] at hlook
      cases hlocked : folder.locked with
      | false =>
        rw [hlocked] at hlook
        exact hopens hlook (.inr (.inr ⟨by simp [hstat, StepOutcome.isDone], hlocked⟩))
      | true =>
        have heq : writeVaultFileAtomic env bytes false folder =
            (.returns .refusedLocked, folder) := by
          simp [writeVaultFileAtomic, FileCall.bind, lockStands, isVaultLocked, hlook, hlocked]
        rw [heq]
        apply iff_of_true (noTrace_unchanged hfresh)
        simp [VaultOpens, hstat, hlocked, StepOutcome.isFailed]
    | stops room =>
      have heq : writeVaultFileAtomic env bytes false folder = (.stops, folder) := by
        simp [writeVaultFileAtomic, FileCall.bind, lockStands, isVaultLocked, hlook, hstat]
      rw [heq]
      apply iff_of_true (noTrace_unchanged hfresh)
      simp [VaultOpens, hstat, StepOutcome.isFailed, StepOutcome.isDone]
    | stopsAfter =>
      have heq : writeVaultFileAtomic env bytes false folder = (.stops, folder) := by
        simp [writeVaultFileAtomic, FileCall.bind, lockStands, isVaultLocked, hlook, hstat]
      rw [heq]
      apply iff_of_true (noTrace_unchanged hfresh)
      simp [VaultOpens, hstat, StepOutcome.isFailed, StepOutcome.isDone]

theorem putBlob_noTrace (env : FileStep → StepOutcome) (bytes : Bytes) {folder : WriteFolder}
    (hfresh : folder.temp = none) :
    NoTrace bytes folder (putBlob env bytes folder) ↔
      ¬ (BlobOpens env folder ∧ LeavesTemp env) := by
  have hlook := statFile_eq env (·.target.isSome) folder
  have hshard (hmissing : statFile env (·.target.isSome) folder = (.returns false, folder))
      (hstat : (env .stat).isFailed ∨ ((env .stat).isDone ∧ folder.target = none)) :
      NoTrace bytes folder (putBlob env bytes folder) ↔
        ¬ (BlobOpens env folder ∧ LeavesTemp env) := by
    cases hmkdir : env .mkdir with
    | done =>
      have hopen : BlobOpens env folder := ⟨hstat, by simp [hmkdir, StepOutcome.isDone]⟩
      have heq : putBlob env bytes folder = replaceTarget env bytes folder := by
        simp [putBlob, FileCall.bind, hmissing, makeShard, FileCall.perform, hmkdir]
      rw [heq, replaceTarget_noTrace env bytes hfresh]
      simp [hopen]
    | fails room =>
      have heq : putBlob env bytes folder = (.throws, folder) := by
        simp [putBlob, FileCall.bind, hmissing, makeShard, FileCall.perform, hmkdir]
      rw [heq]
      apply iff_of_true (noTrace_unchanged hfresh)
      simp [BlobOpens, hmkdir, StepOutcome.isDone]
    | stops room =>
      have heq : putBlob env bytes folder = (.stops, folder) := by
        simp [putBlob, FileCall.bind, hmissing, makeShard, FileCall.perform, hmkdir]
      rw [heq]
      apply iff_of_true (noTrace_unchanged hfresh)
      simp [BlobOpens, hmkdir, StepOutcome.isDone]
    | stopsAfter =>
      have heq : putBlob env bytes folder = (.stops, folder) := by
        simp [putBlob, FileCall.bind, hmissing, makeShard, FileCall.perform, hmkdir]
      rw [heq]
      apply iff_of_true (noTrace_unchanged hfresh)
      simp [BlobOpens, hmkdir, StepOutcome.isDone]
  cases hstat : env .stat with
  | fails room =>
    rw [hstat] at hlook
    exact hshard hlook (.inl (by simp [hstat, StepOutcome.isFailed]))
  | done =>
    cases htarget : folder.target with
    | none =>
      rw [hstat, htarget] at hlook
      exact hshard hlook (.inr ⟨by simp [hstat, StepOutcome.isDone], htarget⟩)
    | some content =>
      have heq : putBlob env bytes folder = (.returns (), folder) := by
        simp [putBlob, FileCall.bind, hlook, hstat, htarget]
      rw [heq]
      apply iff_of_true (noTrace_unchanged hfresh)
      simp [BlobOpens, hstat, htarget, StepOutcome.isFailed]
  | stops room =>
    have heq : putBlob env bytes folder = (.stops, folder) := by
      simp [putBlob, FileCall.bind, hlook, hstat]
    rw [heq]
    apply iff_of_true (noTrace_unchanged hfresh)
    simp [BlobOpens, hstat, StepOutcome.isFailed, StepOutcome.isDone]
  | stopsAfter =>
    have heq : putBlob env bytes folder = (.stops, folder) := by
      simp [putBlob, FileCall.bind, hlook, hstat]
    rw [heq]
    apply iff_of_true (noTrace_unchanged hfresh)
    simp [BlobOpens, hstat, StepOutcome.isFailed, StepOutcome.isDone]

/-- **A write leaves no trace**, wherever it fails or the process stops, if and only if it does not
report an error over a temporary file that it has opened: that of a write, a sync or a close, or
that of a rename after which the removal fails as well. -/
theorem writes_leave_no_trace (env : FileStep → StepOutcome) (bytes : Bytes) (folder : WriteFolder)
    (hfresh : folder.temp = none) :
    (∀ ignoreLock, NoTrace bytes folder (writeVaultFileAtomic env bytes ignoreLock folder) ↔
      ¬ (VaultOpens env ignoreLock folder ∧ LeavesTemp env)) ∧
    (NoTrace bytes folder (putBlob env bytes folder) ↔
      ¬ (BlobOpens env folder ∧ LeavesTemp env)) := by
  constructor
  · intro ignoreLock
    exact writeVaultFileAtomic_noTrace env bytes ignoreLock hfresh
  · exact putBlob_noTrace env bytes hfresh

/-- Every step is done but the write: the disk is full after one byte. -/
def diskFull : FileStep → StepOutcome
  | .write => .fails 1
  | _ => .done

/-- The rename is refused. -/
def renameRefused : FileStep → StepOutcome
  | .rename => .fails 0
  | _ => .done

theorem writes_leave_no_trace_refused :
    NoTrace [1, 2] ⟨some [9], none, false⟩
      (writeVaultFileAtomic renameRefused [1, 2] false ⟨some [9], none, false⟩) := by
  apply ((writes_leave_no_trace renameRefused [1, 2] ⟨some [9], none, false⟩ rfl).1 false).mpr
  simp [LeavesTemp, FillFails, MoveFails, renameRefused, StepOutcome.isFailed]

/-- On a full disk both calls report an error and leave the temporary file behind. -/
theorem writes_leave_trace : ¬ ∀ (env : FileStep → StepOutcome) (bytes : Bytes)
    (folder : WriteFolder), folder.temp = none →
    (∀ ignoreLock, NoTrace bytes folder (writeVaultFileAtomic env bytes ignoreLock folder)) ∧
      NoTrace bytes folder (putBlob env bytes folder) := by
  intro hall
  have hvault := (hall diskFull [1, 2] ⟨some [9], none, false⟩ rfl).1 false
  have htemp : (writeVaultFileAtomic diskFull [1, 2] false ⟨some [9], none, false⟩).2.temp =
      some [1] := by decide +kernel
  have hclean := (hvault.clean (by decide +kernel)).2
  rw [htemp] at hclean
  cases hclean

end PassVault.AtomicWrite
