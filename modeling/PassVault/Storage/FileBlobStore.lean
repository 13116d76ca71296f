import Mathlib.Logic.Function.Basic
import PassVault.Core.Model

/-!
# The blob store on a file system

`FileBlobStore.put` of `packages/storage-node/src/blobStore.ts`, as calls that overlap and go on by
one file-system step at a time. The name of a temporary file is a fresh UUID, so the file belongs
to its call. A rename is atomic and lasts once it has returned; of a file that is not synced a
crash may keep anything. `mkdir` and `close` change no file and are left out.
-/

namespace PassVault

structure DiskFile where
  content : Bytes
  /-- `sync` has returned. -/
  synced : Bool
deriving DecidableEq, Repr

/-- What a crash keeps of a file. -/
def DiskFile.left (kept : Bytes → Bytes) (file : DiskFile) : DiskFile :=
  if file.synced then file else ⟨kept file.content, true⟩

/-- What a call of `put` does next. -/
inductive PutStage where
  | checking
  | opening
  | writing (part : DiskFile)
  | syncing (part : DiskFile)
  | placing (part : DiskFile)
deriving DecidableEq, Repr

structure PutCall where
  bytes : Bytes
  stage : PutStage
deriving DecidableEq, Repr

/-- The blobs in their place, and the calls of `put` that have not returned. -/
structure FileBlobStore where
  blobs : Sha256Hex → Option DiskFile
  started : Nat
  puts : Nat → Option PutCall

namespace FileBlobStore

def empty : FileBlobStore := ⟨fun _ => none, 0, fun _ => none⟩

def has (s : FileBlobStore) (hash : Sha256Hex) : Bool := (s.blobs hash).isSome

def get (s : FileBlobStore) (hash : Sha256Hex) : Option Bytes := (s.blobs hash).map (·.content)

def move (i : Nat) (bytes : Bytes) (stage : PutStage) (s : FileBlobStore) : FileBlobStore :=
  { s with puts := Function.update s.puts i (some ⟨bytes, stage⟩) }

def finish (i : Nat) (s : FileBlobStore) : FileBlobStore :=
  { s with puts := Function.update s.puts i none }

def place (hash : Sha256Hex) (file : DiskFile) (s : FileBlobStore) : FileBlobStore :=
  { s with blobs := Function.update s.blobs hash (some file) }

theorem puts_move (i : Nat) (bytes : Bytes) (stage : PutStage) (s : FileBlobStore) (j : Nat) :
    (s.move i bytes stage).puts j = if j = i then some ⟨bytes, stage⟩ else s.puts j :=
  Function.update_apply ..

theorem puts_finish (i : Nat) (s : FileBlobStore) (j : Nat) :
    (s.finish i).puts j = if j = i then none else s.puts j :=
  Function.update_apply ..

theorem blobs_place (hash : Sha256Hex) (file : DiskFile) (s : FileBlobStore) (hash' : Sha256Hex) :
    (s.place hash file).blobs hash' = if hash' = hash then some file else s.blobs hash' :=
  Function.update_apply ..

/-- A call of `put` starts. -/
def put (bytes : Bytes) (s : FileBlobStore) : FileBlobStore :=
  { s.move s.started bytes .checking with started := s.started + 1 }

/-- The next step of a call. -/
def advance (sha256 : Bytes → Sha256Hex) (i : Nat) (s : FileBlobStore) : Option FileBlobStore :=
  match s.puts i with
  | none => none
  | some ⟨bytes, .checking⟩ =>
    if s.has (sha256 bytes) then some (s.finish i) else some (s.move i bytes .opening)
  | some ⟨bytes, .opening⟩ => some (s.move i bytes (.writing ⟨[], false⟩))
  | some ⟨bytes, .writing part⟩ => some (s.move i bytes (.syncing { part with content := bytes }))
  | some ⟨bytes, .syncing part⟩ => some (s.move i bytes (.placing { part with synced := true }))
  | some ⟨bytes, .placing part⟩ => some ((s.place (sha256 bytes) part).finish i)

/-- The store after a crash, with its temporary files swept. -/
def restart (kept : Bytes → Bytes) (s : FileBlobStore) : FileBlobStore :=
  { s with blobs := fun hash => (s.blobs hash).map (·.left kept), puts := fun _ => none }

/-- The bytes of the call are in its temporary file by the time that it is synced. -/
def Ready (bytes : Bytes) : PutStage → Prop
  | .syncing part => part.content = bytes
  | .placing part => part.content = bytes ∧ part.synced = true
  | _ => True

/-- Every blob in its place is whole. -/
structure Intact (sha256 : Bytes → Sha256Hex) (s : FileBlobStore) : Prop where
  blobs : ∀ hash file, s.blobs hash = some file → sha256 file.content = hash ∧ file.synced = true
  puts : ∀ i bytes stage, s.puts i = some ⟨bytes, stage⟩ → Ready bytes stage

variable {sha256 : Bytes → Sha256Hex} {s t : FileBlobStore}

theorem intact_empty : Intact sha256 empty := ⟨nofun, nofun⟩

theorem intact_move (hs : Intact sha256 s) {i : Nat} {bytes : Bytes} {stage : PutStage}
    (hready : Ready bytes stage) : Intact sha256 (s.move i bytes stage) := by
  refine ⟨hs.blobs, fun j bytes' stage' hj => ?_⟩
  rw [puts_move] at hj
  split at hj
  · cases hj
    exact hready
  · exact hs.puts j bytes' stage' hj

theorem intact_finish (hs : Intact sha256 s) (i : Nat) : Intact sha256 (s.finish i) := by
  refine ⟨hs.blobs, fun j bytes stage hj => ?_⟩
  rw [puts_finish] at hj
  split at hj
  · cases hj
  · exact hs.puts j bytes stage hj

theorem intact_place (hs : Intact sha256 s) {file : DiskFile} (hsynced : file.synced = true) :
    Intact sha256 (s.place (sha256 file.content) file) := by
  refine ⟨fun hash file' hfile => ?_, hs.puts⟩
  rw [blobs_place] at hfile
  split at hfile
  · rename_i hhash
    cases hfile
    exact ⟨hhash.symm, hsynced⟩
  · exact hs.blobs hash file' hfile

theorem intact_put (hs : Intact sha256 s) (bytes : Bytes) : Intact sha256 (s.put bytes) := by
  have hmove : Intact sha256 (s.move s.started bytes .checking) := intact_move hs trivial
  exact ⟨hmove.blobs, hmove.puts⟩

/-- What a step of a call does. -/
theorem advance_cases {i : Nat} (h : advance sha256 i s = some t) :
    ∃ bytes stage, s.puts i = some ⟨bytes, stage⟩ ∧
      ((s.has (sha256 bytes) = true ∧ t = s.finish i) ∨
        (∃ next, (Ready bytes stage → Ready bytes next) ∧ t = s.move i bytes next) ∨
        ∃ part, stage = .placing part ∧ t = (s.place (sha256 bytes) part).finish i) := by
  rw [advance] at h
  cases hcall : s.puts i with
  | none =>
    rw [hcall] at h
    cases h
  | some call =>
    obtain ⟨bytes, stage⟩ := call
    rw [hcall] at h
    refine ⟨bytes, stage, rfl, ?_⟩
    cases stage with
    | checking =>
      simp only at h
      split at h
      · rename_i hhas
        cases h
        exact .inl ⟨hhas, rfl⟩
      · cases h
        exact .inr (.inl ⟨.opening, fun _ => trivial, rfl⟩)
    | opening =>
      cases h
      exact .inr (.inl ⟨.writing ⟨[], false⟩, fun _ => trivial, rfl⟩)
    | writing part =>
      cases h
      exact .inr (.inl ⟨.syncing { part with content := bytes }, fun _ => rfl, rfl⟩)
    | syncing part =>
      cases h
      exact .inr (.inl ⟨.placing { part with synced := true }, fun hpart => ⟨hpart, rfl⟩, rfl⟩)
    | placing part =>
      cases h
      exact .inr (.inr ⟨part, rfl, rfl⟩)

theorem intact_advance (hs : Intact sha256 s) {i : Nat} (h : advance sha256 i s = some t) :
    Intact sha256 t := by
  obtain ⟨bytes, stage, hcall, ⟨-, rfl⟩ | ⟨next, hnext, rfl⟩ | ⟨part, rfl, rfl⟩⟩ := advance_cases h
  · exact intact_finish hs i
  · exact intact_move hs (hnext (hs.puts i bytes stage hcall))
  · obtain ⟨rfl, hsynced⟩ := hs.puts i _ _ hcall
    exact intact_finish (intact_place hs hsynced) i

theorem intact_restart (hs : Intact sha256 s) (kept : Bytes → Bytes) :
    Intact sha256 (s.restart kept) := by
  refine ⟨fun hash file hfile => ?_, nofun⟩
  obtain ⟨file', hfile', rfl⟩ := Option.map_eq_some_iff.mp hfile
  obtain ⟨hhash, hsynced⟩ := hs.blobs hash file' hfile'
  rw [DiskFile.left, if_pos hsynced]
  exact ⟨hhash, hsynced⟩

/-! ## Growth -/

/-- No blob is lost. -/
theorem has_advance {i : Nat} (h : advance sha256 i s = some t) {hash : Sha256Hex}
    (hhash : s.has hash = true) : t.has hash = true := by
  obtain ⟨bytes, stage, -, ⟨-, rfl⟩ | ⟨next, -, rfl⟩ | ⟨part, -, rfl⟩⟩ := advance_cases h
  · exact hhash
  · exact hhash
  · have hblobs := blobs_place (sha256 bytes) part s hash
    rw [has, finish, hblobs]
    split
    · rfl
    · exact hhash

theorem started_advance {i : Nat} (h : advance sha256 i s = some t) : t.started = s.started := by
  obtain ⟨bytes, stage, -, ⟨-, rfl⟩ | ⟨next, -, rfl⟩ | ⟨part, -, rfl⟩⟩ := advance_cases h
  · rfl
  · rfl
  · rfl

theorem has_restart (kept : Bytes → Bytes) (hash : Sha256Hex) :
    (s.restart kept).has hash = s.has hash :=
  Option.isSome_map ..

/-- A call keeps its bytes, and has stored them when it returns. -/
theorem follow_advance {i j : Nat} (h : advance sha256 i s = some t) {bytes : Bytes}
    {stage : PutStage} (hj : s.puts j = some ⟨bytes, stage⟩) :
    (∃ next, t.puts j = some ⟨bytes, next⟩) ∨ t.has (sha256 bytes) = true := by
  obtain ⟨bytes', stage', hi, hcases⟩ := advance_cases h
  by_cases hij : j = i
  · subst hij
    cases hi.symm.trans hj
    rcases hcases with ⟨hhas, rfl⟩ | ⟨next, -, rfl⟩ | ⟨part, -, rfl⟩
    · exact .inr hhas
    · exact .inl ⟨next, by rw [puts_move, if_pos rfl]⟩
    · right
      rw [has, finish, blobs_place, if_pos rfl]
      rfl
  · left
    refine ⟨stage, ?_⟩
    rcases hcases with ⟨-, rfl⟩ | ⟨next, -, rfl⟩ | ⟨part, -, rfl⟩
    · rw [puts_finish, if_neg hij, hj]
    · rw [puts_move, if_neg hij, hj]
    · rw [puts_finish, if_neg hij]
      exact hj

end FileBlobStore

end PassVault
