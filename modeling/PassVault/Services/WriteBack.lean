import PassVault.Services.Combining

/-!
# Interrupted writes

Writing a version to the tracked file may fail, and the process may die at any point of it. What the
file holds then, and what is recorded of it later.
-/

namespace PassVault

open Async

/-- What lies around the file. -/
structure Around where
  locked : FilePath → Bool
  granted : FilePath → Bool
  medium : Medium

def Device.within (around : Around) (s : Device) : Device :=
  { s with locked := around.locked, granted := around.granted, medium := around.medium }

/-- A program runs alone up to some point and dies there, or has come to its end. What lies around
the file may change whenever it waits. -/
inductive Partway {α : Type} :
    OnDevice α → Device → List (Device × DeviceEvent) → Device → Prop where
  | dies {p : OnDevice α} {s : Device} : Partway p s [] s
  | act {f : Device → Device × List DeviceEvent} {next : Device → OnDevice α} {s t : Device}
      {log : List (Device × DeviceEvent)} (h : Partway (next s) (f s).1 log t) :
    Partway (.act f next) s ((f s).2.map (s, ·) ++ log) t
  | await {ready : Device → Bool} {next : OnDevice α} {s t : Device}
      {log : List (Device × DeviceEvent)} (around : Around)
      (hready : ready (s.within around) = true)
      (h : Partway next (s.within around) log t) : Partway (.await ready next) s log t

/-- A run without interruption is one. -/
theorem Partway.of_run {α : Type} {p : OnDevice α} {s t : Device} {result : Except Failure α}
    {log : List (Device × DeviceEvent)} (h : p.run s = some (result, t, log)) :
    Partway p s log t := by
  induction p generalizing s log with
  | done a =>
    cases h
    exact .dies
  | fail e =>
    cases h
    exact .dies
  | act f next ih =>
    obtain ⟨⟨r, u, rest⟩, hrest, heq⟩ := Option.map_eq_some_iff.mp h
    cases heq
    exact .act (ih s hrest)
  | await ready next ih =>
    rw [Async.run] at h
    split at h
    · exact .await ⟨s.locked, s.granted, s.medium⟩ ‹_› (ih h)
    · cases h

/-- The programs that write a version to the tracked file. -/
inductive WriteBackCall where
  | materializeCurrentVersion
  | writeBack (revisionId : RevisionId) (ignoreLock : Bool)
  | saveVaultAs (path : FilePath)
deriving DecidableEq, Repr

namespace WriteBackCall

def program (deps : ServiceDeps) : WriteBackCall → OnDevice Unit
  | materializeCurrentVersion => VaultServices.materializeCurrentVersion deps
  | writeBack revisionId ignoreLock => do
    let _ ← VaultServices.writeBack deps revisionId ignoreLock
  | saveVaultAs path => do
    let _ ← VaultServices.saveVaultAs deps path

/-- The file that it writes, and the version. -/
def target (s : Device) : WriteBackCall → Option (FilePath × RevisionId)
  | materializeCurrentVersion => do
    let vault ← s.vaultId.bind s.store.tables.getVault
    return (← vault.kdbxPath, ← vault.headRevisionId)
  | writeBack revisionId _ => do
    let vault ← s.vaultId.bind s.store.tables.getVault
    return (← vault.kdbxPath, revisionId)
  | saveVaultAs path => do
    let vault ← s.vaultId.bind s.store.tables.getVault
    return (path, ← vault.headRevisionId)

end WriteBackCall

/-- The bytes of a revision. -/
def Store.bytesOf (s : Store) (revisionId : RevisionId) : Option Bytes := do
  let revision ← s.tables.getRevision revisionId
  s.getBlob revision.hash

/-- The call writes these bytes to the file, those of a revision. -/
def WriteBackCall.Writes (call : WriteBackCall) (s : Device) (path : FilePath) (bytes : Bytes) :
    Prop :=
  ∃ revisionId, call.target s = some (path, revisionId) ∧ s.store.bytesOf revisionId = some bytes

theorem WriteBackCall.Writes.unique {call : WriteBackCall} {s : Device} {path : FilePath}
    {bytes bytes' : Bytes} (h : call.Writes s path bytes) (h' : call.Writes s path bytes') :
    bytes = bytes' := by
  obtain ⟨revisionId, htarget, hbytes⟩ := h
  obtain ⟨revisionId', htarget', hbytes'⟩ := h'
  cases htarget.symm.trans htarget'
  exact Option.some.inj (hbytes.symm.trans hbytes')

/-- The programs that record what is in a file: the app comes to the foreground, or a watcher has
seen a change. The file itself only changes by a save of the user. -/
def ServiceCommand.records : ServiceCommand → Bool
  | .call (.recordFileNow _) | .call (.deliver ..) | .lock .. | .grant .. | .medium _ => true
  | _ => false

def recording (deps : ServiceDeps) : System Device DeviceEvent Failure ServiceCommand :=
  fun command s => if command.records then services deps (fun _ _ => true) command s else none

/-- What an interrupted call leaves. -/
structure Undamaged (deps : ServiceDeps) (call : WriteBackCall) (s t : Device) : Prop where
  /-- A file holds what it held before, or all bytes of the revision. -/
  whole : ∀ path, t.files path = s.files path ∨
    ∃ bytes, t.files path = some bytes ∧ call.Writes s path bytes
  /-- Whatever is recorded later is one of the two. -/
  recorded : ∀ d : Device, d.files = t.files → ∀ moves w log,
    Pool.trace (recording deps) moves ⟨d, []⟩ = some (w, log) → ∀ r ∈ log, ∀ revision,
    r.event = .engine (.saved revision) → ∃ path bytes,
      (s.files path = some bytes ∨ call.Writes s path bytes) ∧
        revision.hash = deps.sha256 bytes ∧ revision.sizeBytes = bytes.length

/-- A document is cut short nowhere but at its end, or at what the file held before. -/
def NeverCut (deps : ServiceDeps) (call : WriteBackCall) (s : Device)
    (log : List (Device × DeviceEvent)) : Prop :=
  deps.platform = .android → ∀ d path, (d, .writeFailed path) ∈ log → ∀ room,
    d.medium = .cutShort room → ∀ bytes, call.Writes s path bytes →
    bytes.take room = bytes ∨ d.files path = some (bytes.take room)

namespace VaultFile

/-- What a write leaves that is interrupted. -/
def interrupted : Platform → FilePath → Bytes → Device → Device
  | .desktop, _, _ => id
  | .android, path, bytes => cutShort path bytes

/-- The access with which the file layer puts the bytes in the file, or fails. -/
def putting (platform : Platform) (path : FilePath) (bytes : Bytes) (s : Device) :
    Device × List DeviceEvent :=
  if s.medium = .sound then (s.setFile path bytes, [.wroteFile path bytes])
  else (interrupted platform path bytes s, [.writeFailed path])

end VaultFile

/-- What a program that writes at most once may do next, and whether it has written. -/
inductive WriteSteps (platform : Platform) (W : FilePath → Bytes → Prop) :
    Bool → Device → List DeviceEvent → Device → Bool → Prop where
  | quiet {written : Bool} {s t : Device} {events : List DeviceEvent} (hfiles : t.files = s.files)
      (hevents : ∀ e ∈ events, e.writeFails = false) :
    WriteSteps platform W written s events t written
  | puts {s : Device} {path : FilePath} {bytes : Bytes} (h : W path bytes) :
    WriteSteps platform W false s (VaultFile.putting platform path bytes s).2
      (VaultFile.putting platform path bytes s).1 true

/-- A program that runs alone. -/
def alone {γ : Type} (next : γ → Device → List DeviceEvent → Device → γ → Prop) :
    Discipline γ Device DeviceEvent where
  inv _ := True
  rely s t := ∃ around, t = s.within around
  cond _ _ := True
  next := next

section Alone

variable {γ α : Type} {next : γ → Device → List DeviceEvent → Device → γ → Prop}
  {post : γ → Device → α → Prop} {onFail : γ → Device → Prop}

/-- What every step keeps holds wherever the program dies. -/
theorem Partway.holds {P : γ → Device → List (Device × DeviceEvent) → Prop}
    (haround : ∀ g s log around, P g s log → P g (s.within around) log)
    (hstep : ∀ g s log events t g', P g s log → next g s events t g' →
      P g' t (log ++ events.map (s, ·)))
    {p : OnDevice α} {s t : Device} {log : List (Device × DeviceEvent)} (h : Partway p s log t) :
    ∀ {g : γ} {before : List (Device × DeviceEvent)}, Obeys (alone next) post onFail p g s →
      P g s before → ∃ g', P g' t (before ++ log) := by
  induction h with
  | dies => exact fun _ hP => ⟨_, by simpa using hP⟩
  | act _ ih =>
    intro g before hobeys hP
    obtain ⟨g', hnext, hrest⟩ := hobeys fun _ _ => trivial
    obtain ⟨g'', hend⟩ := ih (hrest trivial) (hstep _ _ _ _ _ _ hP hnext)
    exact ⟨g'', by simpa using hend⟩
  | await around hready _ ih =>
    intro g before hobeys hP
    exact ih (hobeys _ ⟨around, rfl⟩ trivial hready) (haround _ _ _ around hP)

end Alone

section Writes

variable {deps : ServiceDeps} {platform : Platform} {W : FilePath → Bytes → Prop} {s t : Device}
  {written : Bool} {α : Type} {post : Bool → Device → α → Prop} {onFail : Bool → Device → Prop}

/-- The store is what it was when the program began, and the same vault is tracked. -/
def Device.Same (s t : Device) : Prop := t.store = s.store ∧ t.vaultId = s.vaultId

theorem writes_wait {p : OnDevice α}
    (h : ∀ around, Obeys (alone (WriteSteps platform W)) post onFail p written (s.within around)) :
    Obeys (alone (WriteSteps platform W)) post onFail (.await (fun _ => true) p) written s := by
  intro t ht _ _
  obtain ⟨around, rfl⟩ := ht
  exact h around

theorem writes_look {next : Device → OnDevice α}
    (h : ∀ around, Obeys (alone (WriteSteps platform W)) post onFail (next s) written
      (s.within around)) :
    Obeys (alone (WriteSteps platform W)) post onFail
      (.act (fun s => (s, [])) fun s => .await (fun _ => true) (next s)) written s :=
  fun _ => ⟨written, .quiet rfl (by simp), fun _ => writes_wait h⟩

theorem writes_read {f : Device → α} (h : post written s (f s)) :
    Obeys (alone (WriteSteps platform W)) post onFail (Async.read f : OnDevice α) written s :=
  fun _ => ⟨written, .quiet rfl (by simp), fun _ => h⟩

theorem writes_query {f : Tables → α}
    (h : ∀ around, post written (s.within around) (f s.store.tables)) :
    Obeys (alone (WriteSteps platform W)) post onFail (query f) written s :=
  writes_look h

theorem writes_change {f : Device → Device} {events : List DeviceEvent} {a : α}
    (hfiles : (f s).files = s.files) (hevents : ∀ e ∈ events, e.writeFails = false)
    (h : post written (f s) a) :
    Obeys (alone (WriteSteps platform W)) post onFail
      (.act (fun s => (f s, events)) fun _ => .done a : OnDevice α) written s :=
  fun _ => ⟨written, .quiet hfiles hevents, fun _ => h⟩

theorem writes_bytesOf {revisionId : RevisionId} {post : Bool → Device → Bytes → Prop}
    (h : ∀ bytes t, s.store.bytesOf revisionId = some bytes → s.Same t → post written t bytes) :
    Obeys (alone (WriteSteps platform W)) post (fun _ _ => True)
      (SyncEngine.bytesOf revisionId) written s := by
  refine Obeys.seq (Obeys.seq (writes_query fun around => ?_))
  cases hrevision : s.store.tables.getRevision revisionId with
  | none => trivial
  | some revision =>
    change Obeys _ _ _ (getBlob revision.hash) _ _
    apply writes_look
    intro around'
    rw [show (PassVault.store (s.within around)).getBlob revision.hash =
      s.store.getBlob revision.hash from rfl]
    cases hblob : s.store.getBlob revision.hash with
    | none => trivial
    | some bytes =>
      refine h bytes _ ?_ ⟨rfl, rfl⟩
      rw [Store.bytesOf, hrevision]
      exact hblob

theorem writes_put {path : FilePath} {bytes : Bytes} (h : W path bytes) :
    Obeys (alone (WriteSteps platform W)) (fun _ _ _ => True) (fun _ _ => True)
      (VaultFile.put (VaultFile.interrupted platform path bytes) path bytes) false s := by
  refine fun _ => ⟨true, .puts h, fun _ => writes_wait fun _ => ?_⟩
  split <;> trivial

theorem writes_isLocked {post : Bool → Device → Bool → Prop} (path : FilePath)
    (h : ∀ around locked, post written (s.within around) locked) :
    Obeys (alone (WriteSteps platform W)) post onFail
      (VaultFile.isLocked platform path) written s := by
  cases platform with
  | desktop => exact writes_look fun around => h around _
  | android => exact writes_wait fun around => h around _

theorem writes_write {path : FilePath} {bytes : Bytes} {ignoreLock : Bool} (h : W path bytes) :
    Obeys (alone (WriteSteps platform W)) (fun _ _ _ => True) (fun _ _ => True)
      (VaultFile.write platform path bytes ignoreLock) false s := by
  cases platform with
  | desktop =>
    have hatomic : ∀ (locked : Bool) (t : Device),
        Obeys (alone (WriteSteps .desktop W)) (fun _ _ _ => True) (fun _ _ => True)
          (if locked then return .refusedLocked
            else (do Async.pause; VaultFile.put id path bytes) : OnDevice WriteOutcome) false
          t := by
      intro locked t
      split
      · trivial
      · exact writes_wait fun _ => writes_put h
    rw [VaultFile.write, VaultFile.writeAtomic]
    split
    · exact hatomic false s
    · exact Obeys.seq (writes_isLocked path fun around locked => hatomic locked _)
  | android =>
    apply writes_look
    intro around
    split
    · exact writes_put h
    · trivial

theorem writes_clear {events : List DeviceEvent} (hevents : ∀ e ∈ events, e.writeFails = false) :
    Obeys (alone (WriteSteps platform W)) (fun _ _ _ => True) (fun _ _ => True)
      (VaultServices.clearHeldBackUpdate events) written s :=
  writes_change rfl hevents trivial

/-- What the file is compared with makes no difference. -/
theorem writes_holds {hash : Sha256Hex} {post : Bool → Device → Bool → Prop} {path : FilePath}
    (h : ∀ t answer, s.Same t → post written t answer) :
    Obeys (alone (WriteSteps platform W)) post onFail
      (VaultServices.holds deps path hash) written s := by
  have hread : Obeys (alone (WriteSteps platform W)) (fun g t _ => g = written ∧ s.Same t)
      (fun g t => g = written ∧ s.Same t) (VaultFile.read path) written s :=
    writes_look fun around => by split <;> exact ⟨rfl, rfl, rfl⟩
  refine Obeys.seq (hread.attempt (fun g t onDisk ht => ?_) fun g t e ht => ?_)
  · obtain ⟨rfl, hsame⟩ := ht
    exact writes_wait fun around => h _ _ hsame
  · obtain ⟨rfl, hsame⟩ := ht
    exact h _ _ hsame

theorem writes_currentVersion {post : Bool → Device → Option (FilePath × Revision × Nat) → Prop}
    (hnone : ∀ t, post written t none)
    (hsome : ∀ t path head seen, s.Same t →
      WriteBackCall.materializeCurrentVersion.target s = some (path, head.id) →
      post written t (some (path, head, seen))) :
    Obeys (alone (WriteSteps platform W)) post onFail VaultServices.currentVersion written s := by
  refine Obeys.seq (writes_read ?_)
  cases htracked : s.vaultId with
  | none => exact hnone _
  | some vaultId =>
    refine Obeys.seq (writes_read (Obeys.seq (writes_query fun around => ?_)))
    cases hrow : s.store.tables.getVault vaultId with
    | none => exact hnone _
    | some vault =>
      dsimp only
      split
      · rename_i path headRevisionId hpath hhead
        refine Obeys.seq (writes_query fun around' => ?_)
        rw [show (s.within around).store = s.store from rfl]
        cases hrevision : s.store.tables.getRevision headRevisionId with
        | none => exact hnone _
        | some head =>
          refine hsome _ path head _ ⟨rfl, rfl⟩ ?_
          rw [Tables.id_of_getRevision hrevision, WriteBackCall.target, htracked, Option.bind_some,
            hrow]
          simp [hpath, hhead]
      · exact hnone _

theorem writes_materialize :
    Obeys (alone (WriteSteps deps.platform (WriteBackCall.materializeCurrentVersion.Writes s)))
      (fun _ _ _ => True) (fun _ _ => True) (VaultServices.materializeCurrentVersion deps) false
      s := by
  refine Obeys.seq (writes_currentVersion (fun _ => trivial) fun t path head seen ht htarget => ?_)
  refine Obeys.seq (writes_holds fun u agrees hu => ?_)
  split
  · exact writes_clear (by simp [DeviceEvent.writeFails])
  refine Obeys.seq (writes_isLocked _ fun around locked => ?_)
  split
  · exact writes_change rfl (by simp [DeviceEvent.writeFails]) trivial
  have hsame : s.Same (u.within around) := ⟨hu.1.trans ht.1, hu.2.trans ht.2⟩
  refine Obeys.seq (writes_bytesOf fun bytes w hbytes _ => ?_)
  rw [hsame.1] at hbytes
  exact (writes_write ⟨head.id, htarget, hbytes⟩).bind fun g w' outcome _ =>
    writes_clear (by simp [DeviceEvent.writeFails])

theorem writes_writeBack {revisionId : RevisionId} {ignoreLock : Bool} :
    Obeys (alone (WriteSteps deps.platform
        ((WriteBackCall.writeBack revisionId ignoreLock).Writes s)))
      (fun _ _ _ => True) (fun _ _ => True) (VaultServices.writeBack deps revisionId ignoreLock)
      false s := by
  refine Obeys.seq (writes_read ?_)
  cases htracked : s.vaultId with
  | none => trivial
  | some vaultId =>
    refine Obeys.seq (Obeys.seq (writes_query fun around => ?_))
    apply Obeys.pure
    cases hpath : (s.store.tables.getVault vaultId).bind (·.kdbxPath) with
    | none => trivial
    | some path =>
      have htarget : (WriteBackCall.writeBack revisionId ignoreLock).target s =
          some (path, revisionId) := by
        obtain ⟨vault, hrow, hpath⟩ := Option.bind_eq_some_iff.mp hpath
        rw [WriteBackCall.target, htracked, Option.bind_some, hrow]
        simp [hpath]
      have hwrite : Obeys (alone (WriteSteps deps.platform
          ((WriteBackCall.writeBack revisionId ignoreLock).Writes s))) (fun _ _ _ => True)
          (fun _ _ => True) (VaultServices.writeRevision deps path revisionId ignoreLock) false
          (s.within around) := by
        refine Obeys.seq (writes_bytesOf fun bytes t hbytes _ => ?_)
        refine (writes_write ⟨revisionId, htarget, hbytes⟩).bind fun g u outcome _ => ?_
        cases outcome <;> trivial
      exact Obeys.seq (hwrite.attempt (fun _ _ _ _ => trivial) fun _ _ _ _ => trivial)

theorem writes_bindVaultToFile {vaultId : VaultId} {path : FilePath} :
    Obeys (alone (WriteSteps platform W)) (fun _ _ _ => True) (fun _ _ => True)
      (SyncEngine.bindVaultToFile vaultId path : OnDevice Vault) written s := by
  refine Obeys.seq (Obeys.seq (writes_query fun around => ?_))
  cases s.store.tables.getVault vaultId with
  | none => trivial
  | some vault =>
    refine Obeys.seq fun _ => ⟨written, .quiet rfl ?_, fun _ => writes_wait fun _ => trivial⟩
    intro e he
    cases List.mem_singleton.mp he
    rfl

theorem writes_saveVaultAs {path : FilePath} :
    Obeys (alone (WriteSteps deps.platform ((WriteBackCall.saveVaultAs path).Writes s)))
      (fun _ _ _ => True) (fun _ _ => True) (VaultServices.saveVaultAs deps path) false s := by
  refine Obeys.seq (Obeys.seq (writes_read ?_))
  cases htracked : s.vaultId with
  | none => trivial
  | some vaultId =>
    refine Obeys.seq (writes_query fun around => ?_)
    cases hhead : (s.store.tables.getVault vaultId).bind (·.headRevisionId) with
    | none => trivial
    | some head =>
      have htarget : (WriteBackCall.saveVaultAs path).target s = some (path, head) := by
        obtain ⟨vault, hrow, hhead⟩ := Option.bind_eq_some_iff.mp hhead
        rw [WriteBackCall.target, htracked, Option.bind_some, hrow]
        simp [hhead]
      have hsave : Obeys (alone (WriteSteps deps.platform
          ((WriteBackCall.saveVaultAs path).Writes s)))
          (fun _ _ _ => True) (fun _ _ => True)
          (VaultServices.saveHeadAs deps vaultId head path) false (s.within around) := by
        refine Obeys.seq (writes_bytesOf fun bytes t hbytes _ => ?_)
        refine (writes_write ⟨head, htarget, hbytes⟩).bind fun g u outcome _ => ?_
        refine writes_bindVaultToFile.bind fun _ _ _ _ => ?_
        trivial
      exact Obeys.seq (hsave.attempt (fun _ _ _ _ => trivial) fun _ _ _ _ => trivial)

theorem writes_program (call : WriteBackCall) :
    Obeys (alone (WriteSteps deps.platform (call.Writes s))) (fun _ _ _ => True) (fun _ _ => True)
      (call.program deps) false s := by
  cases call with
  | materializeCurrentVersion => exact writes_materialize
  | writeBack =>
    refine writes_writeBack.bind fun _ _ _ _ => ?_
    trivial
  | saveVaultAs =>
    refine writes_saveVaultAs.bind fun _ _ _ _ => ?_
    trivial

end Writes

/-! ## What a write leaves -/

/-- What a program that writes at most once has done to the files. -/
def Written (platform : Platform) (W : FilePath → Bytes → Prop) (s : Device) :
    Bool → Device → List (Device × DeviceEvent) → Prop
  | false, t, log => t.files = s.files ∧ ∀ x ∈ log, x.2.writeFails = false
  | true, t, log => ∃ d path bytes, W path bytes ∧ d.files = s.files ∧
    t.files = (VaultFile.putting platform path bytes d).1.files ∧
    (∀ x ∈ log, x.2.writeFails = true → x = (d, .writeFailed path) ∧ d.medium ≠ .sound) ∧
    (d.medium ≠ .sound → (d, .writeFailed path) ∈ log)

section Written

variable {platform : Platform} {W : FilePath → Bytes → Prop} {s t u : Device}
  {log : List (Device × DeviceEvent)} {events : List DeviceEvent}

theorem written_within {written : Bool} (around : Around) (h : Written platform W s written t log) :
    Written platform W s written (t.within around) log := by
  cases written <;> exact h

theorem written_step {written written' : Bool} (h : Written platform W s written t log)
    (hstep : WriteSteps platform W written t events u written') :
    Written platform W s written' u (log ++ events.map (t, ·)) := by
  cases hstep with
  | quiet hfiles hevents =>
    have hlater : ∀ x ∈ events.map (t, ·), x.2.writeFails = false := by
      intro x hx
      obtain ⟨e, he, rfl⟩ := List.mem_map.mp hx
      exact hevents e he
    cases written with
    | false =>
      exact ⟨hfiles.trans h.1, fun x hx => (List.mem_append.mp hx).elim (h.2 x) (hlater x)⟩
    | true =>
      obtain ⟨d, path, bytes, hW, hd, ht, honly, hmem⟩ := h
      refine ⟨d, path, bytes, hW, hd, hfiles.trans ht, fun x hx hfails => ?_, fun hne =>
        List.mem_append_left _ (hmem hne)⟩
      rcases List.mem_append.mp hx with hx | hx
      · exact honly x hx hfails
      · rw [hlater x hx] at hfails
        cases hfails
  | @puts _ path bytes hW =>
    refine ⟨t, path, bytes, hW, h.1, rfl, fun x hx hfails => ?_, fun hne => ?_⟩
    · rcases List.mem_append.mp hx with hx | hx
      · rw [h.2 x hx] at hfails
        cases hfails
      · obtain ⟨e, he, rfl⟩ := List.mem_map.mp hx
        rw [VaultFile.putting] at he
        split at he
        · cases List.mem_singleton.mp he
          cases hfails
        · cases List.mem_singleton.mp he
          exact ⟨rfl, ‹_›⟩
    · rw [VaultFile.putting, if_neg hne]
      exact List.mem_append_right _ (List.mem_singleton_self _)

end Written

section Whole

variable {deps : ServiceDeps} {call : WriteBackCall} {s t : Device}
  {log : List (Device × DeviceEvent)}

/-- A file that was put in place, or left alone, is whole. -/
theorem whole_of_putting {d : Device} {path : FilePath} {bytes : Bytes}
    (hwrites : call.Writes s path bytes) (hd : d.files = s.files)
    (hcut : deps.platform = .android → ∀ room, d.medium = .cutShort room →
      bytes.take room = bytes ∨ d.files path = some (bytes.take room)) (other : FilePath) :
    (VaultFile.putting deps.platform path bytes d).1.files other = s.files other ∨
      ∃ bytes', (VaultFile.putting deps.platform path bytes d).1.files other = some bytes' ∧
        call.Writes s other bytes' := by
  have hset (content : Bytes) (hcontent : content = bytes ∨ d.files path = some content) :
      (d.setFile path content).files other = s.files other ∨
        ∃ bytes', (d.setFile path content).files other = some bytes' ∧
          call.Writes s other bytes' := by
    by_cases hother : other = path
    · subst hother
      rcases hcontent with rfl | hsame
      · exact .inr ⟨content, if_pos rfl, hwrites⟩
      · exact .inl ((if_pos rfl).trans (hsame.symm.trans (congrFun hd other)))
    · exact .inl ((if_neg hother).trans (congrFun hd other))
  rw [VaultFile.putting]
  split
  · exact hset bytes (.inl rfl)
  · cases hplatform : deps.platform with
    | desktop => exact .inl (congrFun hd other)
    | android =>
      dsimp only [VaultFile.interrupted]
      rw [VaultFile.cutShort]
      split
      · rename_i room hroom
        exact hset _ (hcut hplatform room hroom)
      · exact .inl (congrFun hd other)

theorem whole_iff {written : Bool}
    (h : Written deps.platform (call.Writes s) s written t log) :
    (∀ path, t.files path = s.files path ∨
      ∃ bytes, t.files path = some bytes ∧ call.Writes s path bytes) ↔
      NeverCut deps call s log := by
  cases written with
  | false =>
    obtain ⟨hfiles, hnone⟩ := h
    refine ⟨fun _ _ d path hmem => ?_, fun _ path => .inl (congrFun hfiles path)⟩
    cases hnone _ hmem
  | true =>
    obtain ⟨d, path, bytes, hwrites, hd, ht, honly, hmem⟩ := h
    constructor
    · rintro hwhole handroid d' path' hfailed room hroom bytes' hwrites'
      obtain ⟨heq, hne⟩ := honly _ hfailed rfl
      cases heq
      cases hwrites.unique hwrites'
      have hcut : t.files path = some (bytes.take room) := by
        rw [ht, VaultFile.putting, if_neg hne, handroid]
        dsimp only [VaultFile.interrupted]
        rw [VaultFile.cutShort, hroom]
        exact if_pos rfl
      rcases hwhole path with hsame | ⟨bytes', hbytes', hwrites'⟩
      · exact .inr (by rw [hd, ← hsame, hcut])
      · cases hwrites.unique hwrites'
        exact .inl (Option.some.inj (hcut.symm.trans hbytes'))
    · intro hnever other
      rw [ht]
      refine whole_of_putting hwrites hd (fun handroid room hroom => ?_) other
      have hne : d.medium ≠ .sound := by
        simp [hroom]
      exact hnever handroid d path (hmem hne) room hroom bytes hwrites

end Whole

/-! ## What is recorded later -/

/-- An access that changes no file, and stores no other revision than one of such bytes. -/
def RecordAccess (sha256 : Bytes → Sha256Hex) (Q : Bytes → Prop) (s : Device)
    (events : List DeviceEvent) (t : Device) : Prop :=
  t.files = s.files ∧ ∀ revision, .engine (.saved revision) ∈ events →
    ∃ bytes, Q bytes ∧ revision.hash = sha256 bytes ∧ revision.sizeBytes = bytes.length

theorem Device.files_note (e : DeviceEvent) (s : Device) : (Device.note e s).files = s.files := by
  unfold Device.note
  split <;> rfl

theorem Device.files_changeStore (f : Store → Store) (events : List DeviceEvent) (s : Device) :
    (changeStore f events s).1.files = s.files := by
  change (events.foldl (fun s e => Device.note e s) s).files = s.files
  induction events generalizing s with
  | nil => rfl
  | cons e rest ih => exact (ih _).trans (Device.files_note e s)

section Records

variable {deps : ServiceDeps} {Q : Bytes → Prop} {α : Type}

theorem records_execute {f : Tables → Except Failure Tables} {events : List DeviceEvent}
    (h : ∀ revision, .engine (.saved revision) ∈ events →
      ∃ bytes, Q bytes ∧ revision.hash = deps.sha256 bytes ∧ revision.sizeBytes = bytes.length) :
    Within (RecordAccess deps.sha256 Q) (execute f events : OnDevice Unit) :=
  within_execute (fun _ => ⟨rfl, by simp⟩) fun _ s => ⟨Device.files_changeStore _ _ s, h⟩

theorem records_query (f : Tables → α) :
    Within (RecordAccess deps.sha256 Q) (query f : OnDevice α) :=
  fun _ => ⟨⟨rfl, by simp⟩, trivial⟩

theorem records_change (f : Store → Store) (events : List DeviceEvent)
    (h : ∀ revision, .engine (.saved revision) ∉ events) (s : Device) :
    RecordAccess deps.sha256 Q s events (changeStore f events s).1 :=
  ⟨Device.files_changeStore f events s, fun revision hsaved => absurd hsaved (h revision)⟩

theorem records_transaction {body : OnDevice α}
    (h : Within (RecordAccess deps.sha256 Q) body) :
    Within (RecordAccess deps.sha256 Q) (transaction body) :=
  within_transaction (fun _ => ⟨rfl, by simp⟩) (fun f s => records_change f [] (by simp) s) h

theorem records_report (e : EngineEvent Nat) (h : ∀ revision, e ≠ .saved revision) :
    Within (RecordAccess deps.sha256 Q) (SyncEngine.report e : OnDevice Unit) := by
  refine fun s => ⟨records_change id _ (fun revision hmem => ?_) s, trivial⟩
  cases List.mem_singleton.mp hmem
  exact h revision rfl

theorem records_recordLocalChange {bytes : Bytes} (hbytes : Q bytes) (stamp : Stamp)
    (vaultId : VaultId) (origin : Nat) :
    Within (RecordAccess deps.sha256 Q)
      (SyncEngine.recordLocalChange deps.toEngineDeps stamp vaultId bytes origin :
        OnDevice LocalChangeResult) := by
  refine Within.bind (records_report _ (by simp)) fun _ => ?_
  refine Within.bind (Within.bind (records_query _) fun vault => ?_) fun vault => ?_
  · cases vault <;> trivial
  have hhead : Within (RecordAccess deps.sha256 Q) (SyncEngine.headWithHash vault.headRevisionId
      (deps.sha256 bytes) : OnDevice (Option RevisionId)) := by
    cases vault.headRevisionId with
    | none => trivial
    | some headRevisionId =>
      refine Within.bind (records_query _) fun head => ?_
      cases head <;> trivial
  refine Within.bind hhead fun same => ?_
  split
  · exact Within.bind (records_report _ (by simp)) fun _ => trivial
  · refine Within.bind (fun s => ⟨records_change _ [] (by simp) s, trivial⟩) fun _ => ?_
    refine records_transaction (Within.bind (records_execute fun revision hmem => ?_) fun _ => ?_)
    · cases List.mem_singleton.mp hmem
      exact ⟨bytes, hbytes, rfl, rfl⟩
    · refine Within.bind (records_execute fun revision hmem => ?_) fun _ => ?_
      · cases List.mem_singleton.mp hmem
      · refine Within.bind (records_execute fun revision hmem => ?_) fun _ => trivial
        cases hmem

/-- Programs that record what is in the files. -/
def recordings (sha256 : Bytes → Sha256Hex) (files : FilePath → Option Bytes) :
    Discipline Unit Device DeviceEvent where
  inv s := s.files = files
  rely _ _ := True
  cond _ _ := True
  next _ s events t _ :=
    RecordAccess sha256 (fun bytes => ∃ path, files path = some bytes) s events t

variable {files : FilePath → Option Bytes} {s : Device}

theorem recordings_lawful (sha256 : Bytes → Sha256Hex) : (recordings sha256 files).Lawful where
  refl _ := trivial
  trans _ _ _ _ _ := trivial
  step _ _ _ _ _ h hs _ := ⟨h.1.trans hs, trivial⟩

theorem records_record {stamp : Stamp} {vaultId : VaultId} {saved : Bytes × Nat}
    (hs : s.files = files) (hsaved : ∃ path, files path = some saved.1) :
    Obeys (recordings deps.sha256 files) (fun _ _ _ => True) (fun _ _ => True)
      (VaultServices.record deps stamp vaultId saved) () s := by
  have hrecord : Within
      (RecordAccess deps.sha256 fun bytes => ∃ path, files path = some bytes)
      (VaultServices.record deps stamp vaultId saved) := by
    refine Within.bind (records_recordLocalChange hsaved stamp vaultId saved.2) fun result => ?_
    cases result with
    | unchanged => trivial
    | recorded => exact fun s => ⟨⟨rfl, by simp⟩, trivial⟩
  exact (hrecord.obeys (fun _ _ _ h _ => h) hs).mono (fun _ _ _ _ => trivial) fun _ _ _ => trivial

/-- What is read is what a file holds. -/
theorem records_readSaved {path : FilePath} :
    Obeys (recordings deps.sha256 files)
      (fun _ t saved => t.files = files ∧ ∃ path, files path = some saved.1) (fun _ _ => True)
      (VaultFile.readSaved path) () s := by
  refine fun _ => ⟨(), ⟨rfl, by simp⟩, fun hs t _ ht _ => ?_⟩
  cases hread : s.files path with
  | none => trivial
  | some bytes => exact ⟨ht, path, (congrFun hs path).symm.trans hread⟩

theorem records_read {f : Device → α} {post : Unit → Device → α → Prop}
    {onFail : Unit → Device → Prop} (h : s.files = files → post () s (f s)) :
    Obeys (recordings deps.sha256 files) post onFail (Async.read f : OnDevice α) () s :=
  fun _ => ⟨(), ⟨rfl, by simp⟩, h⟩

theorem records_find {f : Tables → α} {post : Unit → Device → α → Prop}
    {onFail : Unit → Device → Prop} (h : ∀ t, post () t (f s.store.tables)) :
    Obeys (recordings deps.sha256 files) post onFail (query f : OnDevice α) () s :=
  fun _ => ⟨(), ⟨rfl, by simp⟩, fun _ t _ _ _ => h t⟩

theorem records_recordFileNow (stamp : Stamp) :
    Obeys (recordings deps.sha256 files) (fun _ _ _ => True) (fun _ _ => True)
      (VaultServices.recordFileNow deps stamp) () s := by
  refine Obeys.seq (records_read fun _ => ?_)
  cases s.vaultId with
  | none => trivial
  | some vaultId =>
    refine Obeys.seq (Obeys.seq (records_find fun t => ?_))
    apply Obeys.pure
    cases (s.store.tables.getVault vaultId).bind (·.kdbxPath) with
    | none => trivial
    | some path => exact records_readSaved.bind fun _ t saved h => records_record h.1 h.2

theorem records_onChange {stamp : Stamp} {saved : Bytes × Nat}
    (hsaved : ∃ path, files path = some saved.1) :
    Obeys (recordings deps.sha256 files) (fun _ _ _ => True) (fun _ _ => True)
      (VaultServices.onChange deps stamp saved) () s := by
  refine Obeys.seq (records_read fun hs => ?_)
  cases s.vaultId with
  | none => trivial
  | some vaultId => exact records_record hs hsaved

theorem records_deliver (stamp : Stamp) (path : FilePath) :
    Obeys (recordings deps.sha256 files) (fun _ _ _ => True) (fun _ _ => True)
      (VaultServices.deliver deps stamp path) () s := by
  have hread (s : Device) : Obeys (recordings deps.sha256 files)
      (fun _ t result => ∀ saved, result = .ok saved → ∃ path, files path = some saved.1)
      (fun _ _ => True) (VaultFile.readSaved path).attempt () s :=
    records_readSaved.attempt (fun _ t saved h saved' heq => by cases heq; exact h.2)
      fun _ _ _ _ _ heq => by cases heq
  refine (hread s).bind fun _ t result hresult => ?_
  cases result with
  | ok saved => exact records_onChange (hresult saved rfl)
  | error e =>
    refine fun u _ _ _ => (hread u).bind fun _ v result hresult => ?_
    cases result with
    | ok saved => exact records_onChange (hresult saved rfl)
    | error e => trivial

theorem records_finish {p : OnDevice Unit}
    (h : Obeys (recordings deps.sha256 files) (fun _ _ _ => True) (fun _ _ => True) p () s) :
    Obeys (recordings deps.sha256 files) (fun _ _ _ => True) (fun _ _ => True)
      (ServiceCall.finish p) () s := by
  refine h.bind fun _ _ _ _ => ?_
  trivial

theorem records_call {call : ServiceCall}
    (h : ∀ s, Obeys (recordings deps.sha256 files) (fun _ _ _ => True) (fun _ _ => True)
      (call.run deps) () s) :
    Obeys (recordings deps.sha256 files) (fun _ _ _ => True) (fun _ _ => True)
      (call.program deps) () s := by
  refine fun _ => ⟨(), ⟨rfl, by simp⟩, fun _ => ?_⟩
  have hanswer (s : Device) : Obeys (recordings deps.sha256 files) (fun _ _ _ => True)
      (fun _ _ => True) (call.run deps).attempt () s :=
    (h s).attempt (fun _ _ _ _ => trivial) fun _ _ _ _ => trivial
  refine (hanswer _).bind fun _ t answer _ => ?_
  exact fun _ => ⟨(), ⟨rfl, by simp⟩, fun _ => trivial⟩

theorem records_program {command : ServiceCommand} {p : OnDevice Unit}
    (hp : recording deps command s = some p) :
    Obeys (recordings deps.sha256 files) (fun _ _ _ => True) (fun _ _ => True) p () s := by
  rw [recording] at hp
  split at hp
  case isFalse => cases hp
  case isTrue hrecords =>
    have hchange (f : Device → Device) (hf : ∀ s, (f s).files = s.files) :
        Obeys (recordings deps.sha256 files) (fun _ _ _ => True) (fun _ _ => True)
          (Async.modify f : OnDevice Unit) () s :=
      fun _ => ⟨(), ⟨hf s, by simp⟩, fun _ => trivial⟩
    cases command with
    | ingestNext => cases hrecords
    | lock | grant | medium =>
      cases hp
      exact hchange _ fun _ => rfl
    | call call =>
      simp only [services, Bool.and_true] at hp
      split at hp
      · cases hp
        cases call with
        | recordFileNow stamp =>
          exact records_call fun s => records_finish (records_recordFileNow stamp)
        | deliver stamp path =>
          exact records_call fun s => records_finish (records_deliver stamp path)
        | _ => cases hrecords
      · cases hp

theorem recorded_of_files {d : Device} {moves : List (Move ServiceCommand)}
    {w : Pool Device DeviceEvent Failure} {log : List (Record Device DeviceEvent)}
    (h : Pool.trace (recording deps) moves ⟨d, []⟩ = some (w, log)) :
    ∀ r ∈ log, ∀ revision, r.event = .engine (.saved revision) → ∃ path bytes,
      d.files path = some bytes ∧ revision.hash = deps.sha256 bytes ∧
        revision.sizeBytes = bytes.length := by
  have hinit : Pool.Obeys (recordings deps.sha256 d.files)
      (fun _ _ log => ∀ r ∈ log, ∀ revision, r.event = .engine (.saved revision) →
        ∃ path bytes, d.files path = some bytes ∧ revision.hash = deps.sha256 bytes ∧
          revision.sizeBytes = bytes.length)
      (fun _ => none) (⟨d, []⟩ : Pool Device DeviceEvent Failure) [] :=
    ⟨rfl, fun r hr => absurd hr List.not_mem_nil, fun i p hp => absurd hp nofun, fun _ _ => rfl⟩
  obtain ⟨places, hw⟩ := Pool.Obeys.trace (recordings_lawful deps.sha256)
    (fun _ _ _ s _ events _ _ _ hlog _ _ _ hnext r hr revision hevent => by
      rcases List.mem_append.mp hr with hr | hr
      · exact hlog r hr revision hevent
      · obtain ⟨e, he, rfl⟩ := List.mem_map.mp hr
        obtain ⟨bytes, ⟨path, hpath⟩, hsaved⟩ := hnext.2 revision (hevent ▸ he)
        exact ⟨path, bytes, hpath, hsaved⟩)
    (fun _ _ _ _ _ _ _ hlog _ hp => ⟨(), hlog, records_program hp⟩) hinit h fun _ _ => trivial
  exact hw.holds

end Records

/-- **An interrupted write never enters the history** exactly if no document is cut short but at its
end, or at what the file held before. -/
theorem undamaged_iff {deps : ServiceDeps} {call : WriteBackCall} {s t : Device}
    {log : List (Device × DeviceEvent)} (h : Partway (call.program deps) s log t) :
    Undamaged deps call s t ↔ NeverCut deps call s log := by
  have hstart : Written deps.platform (call.Writes s) s false s [] := ⟨rfl, by simp⟩
  obtain ⟨written, hw⟩ := h.holds (fun _ _ _ around h => written_within around h)
    (fun _ _ _ _ _ _ h hstep => written_step h hstep) (writes_program call) hstart
  rw [List.nil_append] at hw
  rw [← whole_iff hw]
  refine ⟨Undamaged.whole, fun hwhole => ⟨hwhole, ?_⟩⟩
  intro d hd moves w later htrace r hr revision hevent
  obtain ⟨path, bytes, hbytes, hsaved⟩ := recorded_of_files htrace r hr revision hevent
  rw [hd] at hbytes
  refine ⟨path, bytes, ?_, hsaved⟩
  rcases hwhole path with hsame | ⟨bytes', hbytes', hwrites⟩
  · exact .inl (hsame.symm.trans hbytes)
  · cases hbytes.symm.trans hbytes'
    exact .inr hwrites

/-- A device whose file has a save that the version on top is about to replace. -/
def behind (medium : Medium) : Device :=
  { Device.of (storeAfter
      [.importVault ⟨"home"⟩ ⟨⟨"h1"⟩, 1⟩ "home.kdbx" [1, 2] (some ⟨"home.kdbx"⟩)]) ⟨"home"⟩ with
    files := fun path => if path = ⟨"home.kdbx"⟩ then some [9, 9, 9] else none
    medium := medium }

/-- On a desktop the file stays what it was when the disk is full. -/
theorem undamaged_iff_full : ∃ t log,
    Partway (WriteBackCall.materializeCurrentVersion.program ⟨plainDeps, .desktop⟩)
      (behind (.cutShort 1)) log t ∧ t.files ⟨"home.kdbx"⟩ = some [9, 9, 9] ∧
      Undamaged ⟨plainDeps, .desktop⟩ .materializeCurrentVersion (behind (.cutShort 1)) t := by
  have hrun : ∃ result t log,
      (WriteBackCall.materializeCurrentVersion.program ⟨plainDeps, .desktop⟩).run
        (behind (.cutShort 1)) = some (result, t, log) ∧
        t.files ⟨"home.kdbx"⟩ = some [9, 9, 9] := ⟨_, _, _, rfl, rfl⟩
  obtain ⟨result, t, log, hrun, hfile⟩ := hrun
  have hpartway := Partway.of_run hrun
  exact ⟨t, log, hpartway, hfile, (undamaged_iff hpartway).mpr nofun⟩

/-- On Android it holds a first part of the version. -/
theorem damaged_full : ∃ t log,
    Partway (WriteBackCall.materializeCurrentVersion.program ⟨plainDeps, .android⟩)
      (behind (.cutShort 1)) log t ∧ t.files ⟨"home.kdbx"⟩ = some [1] ∧
      ¬ Undamaged ⟨plainDeps, .android⟩ .materializeCurrentVersion (behind (.cutShort 1)) t := by
  have hrun : ∃ result t log,
      (WriteBackCall.materializeCurrentVersion.program ⟨plainDeps, .android⟩).run
        (behind (.cutShort 1)) = some (result, t, log) ∧
        t.files ⟨"home.kdbx"⟩ = some [1] := ⟨_, _, _, rfl, rfl⟩
  obtain ⟨result, t, log, hrun, hfile⟩ := hrun
  refine ⟨t, log, Partway.of_run hrun, hfile, fun hundamaged => ?_⟩
  rcases hundamaged.whole ⟨"home.kdbx"⟩ with hsame | ⟨bytes, hbytes, revisionId, htarget, hrevision⟩
  · cases hfile.symm.trans hsame
  · have hversion : WriteBackCall.materializeCurrentVersion.target (behind (.cutShort 1)) =
        some (⟨"home.kdbx"⟩, ⟨"h1"⟩) := rfl
    cases hversion.symm.trans htarget
    have hwhole : (behind (.cutShort 1)).store.bytesOf ⟨"h1"⟩ = some [1, 2] := rfl
    cases hwhole.symm.trans hrevision
    cases hfile.symm.trans hbytes

end PassVault
