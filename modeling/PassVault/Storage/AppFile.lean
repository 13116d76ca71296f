import Mathlib.Logic.Function.Basic
import PassVault.Core.Model
import PassVault.Lib.Machine

/-!
# Files of the app

`writeAppFileAtomic` and `AppBlobStore.put` of `apps/mobile/src/platform/appStorage.ts`, as calls
that overlap on one path. A call of the plugin runs to its end before the next one starts.
-/

namespace PassVault

open Machine

/-- Where a call is: what it asks the plugin next, or how it ended. -/
inductive WriteStage where
  /-- `put` looks whether the file is there. -/
  | checking
  | writing
  | deleting
  | renaming
  | resolved
  | rejected
  /-- The process stopped. -/
  | lost
deriving DecidableEq, Repr

@[ext] structure WriteCall where
  content : Bytes
  stage : WriteStage
deriving DecidableEq, Repr

/-- A path, the temporary file beside it, and the calls made so far. -/
structure AppFile where
  file : Option Bytes
  part : Option Bytes
  started : Nat
  calls : Nat → Option WriteCall
  /-- The calls that have resolved, in the order in which they did. -/
  resolved : List Nat
  /-- The file has been there. No call looks at it. -/
  existed : Bool

/-- What the plugin does for a call, or what happens to the process. A write that fails leaves a
first part, or the temporary file as it was; cut short, it leaves a first part. -/
inductive FileAction where
  | start (content : Bytes)
  | check (call : Nat)
  | write (call : Nat)
  | writeFails (call : Nat) (room : Option Nat)
  | delete (call : Nat)
  | deleteFails (call : Nat)
  | rename (call : Nat)
  | renameFails (call : Nat)
  | stop
  | stopWriting (call : Nat) (room : Nat)
deriving DecidableEq, Repr

def WriteStage.stopped : WriteStage → WriteStage
  | resolved => resolved
  | rejected => rejected
  | _ => lost

namespace AppFile

def opened (initial : Option Bytes) : AppFile where
  file := initial
  part := none
  started := 0
  calls _ := none
  resolved := []
  existed := initial.isSome

/-- The call is at a stage. -/
def At (s : AppFile) (i : Nat) (content : Bytes) (stage : WriteStage) : Prop :=
  s.calls i = some ⟨content, stage⟩

def move (i : Nat) (content : Bytes) (stage : WriteStage) (s : AppFile) : AppFile :=
  { s with calls := Function.update s.calls i (some ⟨content, stage⟩) }

def resolve (i : Nat) (content : Bytes) (s : AppFile) : AppFile :=
  { s.move i content .resolved with resolved := s.resolved ++ [i] }

def stopped (s : AppFile) : AppFile :=
  { s with calls := fun i => (s.calls i).map fun call => { call with stage := call.stage.stopped } }

/-- One action. At the path of a blob, every call is a `put` of this blob. -/
def step (blob : Option Bytes) (s : AppFile) : FileAction → Option AppFile
  | .start content =>
    if blob.all (· = content) then
      let stage := if blob.isSome then .checking else .writing
      some { s.move s.started content stage with started := s.started + 1 }
    else none
  | .check i =>
    match s.calls i with
    | some ⟨content, .checking⟩ =>
      if s.file.isSome then some (s.resolve i content) else some (s.move i content .writing)
    | _ => none
  | .write i =>
    match s.calls i with
    | some ⟨content, .writing⟩ => some { s.move i content .deleting with part := some content }
    | _ => none
  | .writeFails i room =>
    match s.calls i with
    | some ⟨content, .writing⟩ =>
      let part := (room.map content.take).or s.part
      some { s.move i content .rejected with part := part }
    | _ => none
  | .delete i =>
    match s.calls i with
    | some ⟨content, .deleting⟩ => some { s.move i content .renaming with file := none }
    | _ => none
  | .deleteFails i =>
    match s.calls i with
    | some ⟨content, .deleting⟩ => some (s.move i content .renaming)
    | _ => none
  | .rename i =>
    match s.calls i, s.part with
    | some ⟨content, .renaming⟩, some bytes =>
      some { s.resolve i content with file := some bytes, part := none, existed := true }
    | some ⟨content, .renaming⟩, none => some (s.move i content .rejected)
    | _, _ => none
  | .renameFails i =>
    match s.calls i with
    | some ⟨content, .renaming⟩ => some (s.move i content .rejected)
    | _ => none
  | .stop => some s.stopped
  | .stopWriting i room =>
    match s.calls i with
    | some ⟨content, .writing⟩ => some { s.stopped with part := some (content.take room) }
    | _ => none

/-- What the path holds afterwards: the previous content or that of a call, and that of a call that
has resolved or of one that resolved later. -/
structure Whole (initial : Option Bytes) (s : AppFile) : Prop where
  present : s.existed = true → s.file.isSome = true
  whole : ∀ bytes ∈ s.file, initial = some bytes ∨ ∃ i stage, s.At i bytes stage
  kept : ∀ before i after, s.resolved = before ++ i :: after →
    ∃ j ∈ i :: after, ∃ content stage, s.At j content stage ∧ s.file = some content

/-- The call has written the temporary file and has not moved it yet. -/
def Holding (s : AppFile) (i : Nat) : Prop :=
  ∃ content, s.At i content .deleting ∨ s.At i content .renaming

/-- No call writes the temporary file while another one is about to move it, and while the file is
deleted, the process does not stop and no rename fails. -/
def Orderly (s : AppFile) : FileAction → Prop
  | .write _ | .writeFails .. => ∀ i, ¬ s.Holding i
  | .stopWriting .. => (∀ i, ¬ s.Holding i) ∧ (s.existed = true → s.file.isSome = true)
  | .renameFails _ | .stop => s.existed = true → s.file.isSome = true
  | _ => True

variable {blob initial : Option Bytes} {s t : AppFile}

theorem at_move {i j : Nat} {content bytes : Bytes} {stage stage' : WriteStage} :
    (s.move i content stage).At j bytes stage' ↔
      (j = i ∧ content = bytes ∧ stage = stage') ∨ (j ≠ i ∧ s.At j bytes stage') := by
  unfold At move
  by_cases hij : j = i
  · subst hij
    simp
  · simp [hij]

theorem at_stopped {i : Nat} {content : Bytes} {stage : WriteStage} :
    s.stopped.At i content stage ↔ ∃ stage', s.At i content stage' ∧ stage'.stopped = stage := by
  unfold At stopped
  cases h : s.calls i with
  | none => simp [h]
  | some call => simp [h, WriteCall.ext_iff, eq_comm, and_assoc]

theorem at_unique {i : Nat} {content bytes : Bytes} {stage stage' : WriteStage}
    (h : s.At i content stage) (h' : s.At i bytes stage') : content = bytes ∧ stage = stage' := by
  cases h.symm.trans h'
  exact ⟨rfl, rfl⟩

theorem holding_move {i j : Nat} {content : Bytes} {stage : WriteStage} :
    (s.move i content stage).Holding j ↔
      (j = i ∧ (stage = .deleting ∨ stage = .renaming)) ∨ (j ≠ i ∧ s.Holding j) := by
  unfold Holding
  simp only [at_move]
  constructor
  · rintro ⟨bytes, (⟨hj, -, hstage⟩ | ⟨hj, h⟩) | ⟨hj, -, hstage⟩ | ⟨hj, h⟩⟩
    · exact .inl ⟨hj, .inl hstage⟩
    · exact .inr ⟨hj, bytes, .inl h⟩
    · exact .inl ⟨hj, .inr hstage⟩
    · exact .inr ⟨hj, bytes, .inr h⟩
  · rintro (⟨hj, hstage⟩ | ⟨hj, bytes, h⟩)
    · exact ⟨content, hstage.imp (fun h => .inl ⟨hj, rfl, h⟩) fun h => .inl ⟨hj, rfl, h⟩⟩
    · exact ⟨bytes, h.imp (fun h => .inr ⟨hj, h⟩) fun h => .inr ⟨hj, h⟩⟩

theorem not_holding_stopped (i : Nat) : ¬ s.stopped.Holding i := by
  rintro ⟨content, h | h⟩ <;> obtain ⟨stage, -, hstage⟩ := at_stopped.mp h <;>
    cases stage <;> cases hstage

/-- The temporary file is that of the one call that is about to move it. -/
structure Temporary (s : AppFile) : Prop where
  parted : ∀ i content, s.At i content .deleting ∨ s.At i content .renaming →
    s.part = some content
  alone : ∀ i j, s.Holding i → s.Holding j → i = j

theorem temporary_of_none (h : ∀ i, ¬ s.Holding i) : Temporary s where
  parted i content hat := absurd ⟨content, hat⟩ (h i)
  alone i _ hi _ := absurd hi (h i)

/-- A call that moves to a stage at which it does not hold the temporary file. -/
theorem Temporary.aside (hs : Temporary s) {i : Nat} {content : Bytes} {stage : WriteStage}
    (hcalls : t.calls = (s.move i content stage).calls) (hpart : t.part = s.part)
    (hdeleting : stage ≠ .deleting) (hrenaming : stage ≠ .renaming) : Temporary t where
  parted j bytes hat := by
    simp only [At, hcalls] at hat
    rw [hpart]
    refine hs.parted j bytes (hat.imp (fun h => ?_) fun h => ?_)
    · exact (at_move.mp h).elim (fun h => absurd h.2.2 hdeleting) (·.2)
    · exact (at_move.mp h).elim (fun h => absurd h.2.2 hrenaming) (·.2)
  alone j k hj hk := by
    simp only [Holding, At, hcalls] at hj hk
    have hheld : ∀ l, (s.move i content stage).Holding l → s.Holding l := fun l hl =>
      (holding_move.mp hl).elim (fun h => absurd h.2 (by simp [hdeleting, hrenaming])) (·.2)
    exact hs.alone j k (hheld j hj) (hheld k hk)

/-- The call that holds the temporary file goes on. -/
theorem Temporary.next (hs : Temporary s) {i : Nat} {content : Bytes}
    (hi : s.At i content .deleting) (hcalls : t.calls = (s.move i content .renaming).calls)
    (hpart : t.part = s.part) : Temporary t where
  parted j bytes hat := by
    simp only [At, hcalls] at hat
    rw [hpart]
    rcases hat with hat | hat
    · rcases at_move.mp hat with ⟨-, -, hstage⟩ | ⟨-, hj⟩
      · cases hstage
      · exact hs.parted j bytes (.inl hj)
    · rcases at_move.mp hat with ⟨-, rfl, -⟩ | ⟨-, hj⟩
      · exact hs.parted i _ (.inl hi)
      · exact hs.parted j bytes (.inr hj)
  alone j k hj hk := by
    simp only [Holding, At, hcalls] at hj hk
    have hheld : ∀ l, (s.move i content .renaming).Holding l → l = i := fun l hl =>
      (holding_move.mp hl).elim (·.1) fun h => hs.alone l i h.2 ⟨content, .inl hi⟩
    rw [hheld j hj, hheld k hk]

/-- The call that holds the temporary file is done with it. -/
theorem Temporary.done (hs : Temporary s) {i : Nat} {content : Bytes} {stage : WriteStage}
    (hi : s.At i content .renaming) (hcalls : t.calls = (s.move i content stage).calls)
    (hdeleting : stage ≠ .deleting) (hrenaming : stage ≠ .renaming) : Temporary t := by
  apply temporary_of_none
  intro j hj
  simp only [Holding, At, hcalls] at hj
  rcases holding_move.mp hj with ⟨-, hstage⟩ | ⟨hne, hj⟩
  · exact hstage.elim hdeleting hrenaming
  · exact hne (hs.alone j i hj ⟨content, .inr hi⟩)

theorem temporary_written {i : Nat} {content : Bytes} (hnone : ∀ j, ¬ s.Holding j) :
    Temporary { s.move i content .deleting with part := some content } where
  parted j bytes hat := by
    rcases hat with hat | hat <;> rcases at_move.mp hat with ⟨-, rfl, -⟩ | ⟨-, hj⟩
    · rfl
    · exact absurd ⟨bytes, .inl hj⟩ (hnone j)
    · rfl
    · exact absurd ⟨bytes, .inr hj⟩ (hnone j)
  alone j k hj hk := by
    have hheld : ∀ l, (s.move i content .deleting).Holding l → l = i := fun l hl =>
      (holding_move.mp hl).elim (·.1) fun h => absurd h.2 (hnone l)
    rw [hheld j hj, hheld k hk]

theorem temporary_step {action : FileAction} (hs : Temporary s) (hC : s.Orderly action)
    (h : step blob s action = some t) : Temporary t := by
  cases action <;> simp only [step] at h
  case start content =>
    split at h
    · cases h
      refine hs.aside rfl rfl ?_ ?_ <;> split <;> nofun
    · cases h
  case check i =>
    split at h
    · split at h <;> cases h <;> exact hs.aside rfl rfl nofun nofun
    · cases h
  case write i =>
    split at h
    · cases h
      exact temporary_written hC
    · cases h
  case writeFails i room =>
    split at h
    · cases h
      apply temporary_of_none
      intro j hj
      rcases holding_move.mp hj with ⟨-, hstage⟩ | ⟨-, hj⟩
      · exact hstage.elim nofun nofun
      · exact hC j hj
    · cases h
  case delete i =>
    split at h <;> rename_i hi
    · cases h
      exact hs.next hi rfl rfl
    · cases h
  case deleteFails i =>
    split at h <;> rename_i hi
    · cases h
      exact hs.next hi rfl rfl
    · cases h
  case rename i =>
    split at h <;> rename_i hi _
    · cases h
      exact hs.done hi rfl nofun nofun
    · cases h
      exact hs.done hi rfl nofun nofun
    · cases h
  case renameFails i =>
    split at h <;> rename_i hi
    · cases h
      exact hs.done hi rfl nofun nofun
    · cases h
  case stop =>
    cases h
    exact temporary_of_none not_holding_stopped
  case stopWriting i room =>
    split at h
    · cases h
      exact temporary_of_none not_holding_stopped
    · cases h

/-- What is at the path was there or is that of a call; at the path of a blob, it is the blob. -/
structure Contents (blob initial : Option Bytes) (s : AppFile) : Prop where
  ofBlob : ∀ b ∈ blob, ∀ i content stage, s.At i content stage → content = b
  checks : ∀ i content, s.At i content .checking → blob.isSome = true
  bound : ∀ i content stage, s.At i content stage → i < s.started
  whole : ∀ bytes ∈ s.file, initial = some bytes ∨ ∃ i stage, s.At i bytes stage

theorem Contents.moved (hs : Contents blob initial s) {i : Nat} {content : Bytes}
    {old stage : WriteStage} (hi : s.At i content old)
    (hcalls : t.calls = (s.move i content stage).calls) (hstarted : t.started = s.started)
    (hfile : ∀ bytes ∈ t.file, bytes ∈ s.file ∨ bytes = content) (hstage : stage ≠ .checking) :
    Contents blob initial t where
  ofBlob b hb j bytes stage' hat := by
    simp only [At, hcalls] at hat
    rcases at_move.mp hat with ⟨-, rfl, -⟩ | ⟨-, hj⟩
    · exact hs.ofBlob b hb i _ old hi
    · exact hs.ofBlob b hb j bytes stage' hj
  checks j bytes hat := by
    simp only [At, hcalls] at hat
    exact (at_move.mp hat).elim (fun h => absurd h.2.2 hstage) fun h => hs.checks j bytes h.2
  bound j bytes stage' hat := by
    simp only [At, hcalls] at hat
    rw [hstarted]
    rcases at_move.mp hat with ⟨rfl, -, -⟩ | ⟨-, hj⟩
    · exact hs.bound j content old hi
    · exact hs.bound j bytes stage' hj
  whole bytes hbytes := by
    have hcarry : ∀ j bytes stage', s.At j bytes stage' → ∃ stage, t.At j bytes stage := by
      intro j bytes stage' hj
      simp only [At, hcalls]
      by_cases hji : j = i
      · subst hji
        exact ⟨stage, at_move.mpr (.inl ⟨rfl, (at_unique hi hj).1, rfl⟩)⟩
      · exact ⟨stage', at_move.mpr (.inr ⟨hji, hj⟩)⟩
    rcases hfile bytes hbytes with hold | rfl
    · exact (hs.whole bytes hold).imp_right fun ⟨j, stage', hj⟩ => ⟨j, hcarry j bytes stage' hj⟩
    · exact .inr ⟨i, hcarry i _ old hi⟩

theorem Contents.stopped (hs : Contents blob initial s) (hcalls : t.calls = s.stopped.calls)
    (hstarted : t.started = s.started) (hfile : t.file = s.file) : Contents blob initial t where
  ofBlob b hb i content stage hat := by
    simp only [At, hcalls] at hat
    obtain ⟨old, hi, -⟩ := at_stopped.mp hat
    exact hs.ofBlob b hb i content old hi
  checks i content hat := by
    simp only [At, hcalls] at hat
    obtain ⟨old, hi, hold⟩ := at_stopped.mp hat
    cases old <;> cases hold
  bound i content stage hat := by
    simp only [At, hcalls] at hat
    obtain ⟨old, hi, -⟩ := at_stopped.mp hat
    rw [hstarted]
    exact hs.bound i content old hi
  whole bytes hbytes := by
    rw [hfile] at hbytes
    refine (hs.whole bytes hbytes).imp_right fun ⟨i, stage, hi⟩ => ⟨i, stage.stopped, ?_⟩
    simp only [At, hcalls]
    exact at_stopped.mpr ⟨stage, hi, rfl⟩

theorem contents_started {content : Bytes} {stage : WriteStage} (hs : Contents blob initial s)
    (hcontent : blob.all (· = content) = true) (hstage : stage = .checking → blob.isSome = true) :
    Contents blob initial { s.move s.started content stage with started := s.started + 1 } where
  ofBlob b hb i bytes stage' hat := by
    rcases at_move.mp hat with ⟨-, rfl, -⟩ | ⟨-, hi⟩
    · cases hb
      exact (of_decide_eq_true hcontent).symm
    · exact hs.ofBlob b hb i bytes stage' hi
  checks i bytes hat := by
    rcases at_move.mp hat with ⟨-, -, h⟩ | ⟨-, hi⟩
    · exact hstage h
    · exact hs.checks i bytes hi
  bound i bytes stage' hat := by
    show i < s.started + 1
    rcases at_move.mp hat with ⟨rfl, -, -⟩ | ⟨-, hi⟩
    · omega
    · have hbound := hs.bound i bytes stage' hi
      omega
  whole bytes hbytes := by
    refine (hs.whole bytes hbytes).imp_right fun ⟨i, stage', hi⟩ => ⟨i, stage', ?_⟩
    exact at_move.mpr (.inr ⟨Nat.ne_of_lt (hs.bound i bytes stage' hi), hi⟩)

theorem contents_step {action : FileAction} (hs : Contents blob initial s) (hpart : Temporary s)
    (h : step blob s action = some t) : Contents blob initial t := by
  cases action <;> simp only [step] at h
  case start content =>
    split at h <;> rename_i hcontent
    · cases h
      apply contents_started hs hcontent
      intro h
      by_contra hnone
      rw [if_neg hnone] at h
      cases h
    · cases h
  case check i =>
    split at h <;> rename_i hi
    · split at h <;> cases h <;> exact hs.moved hi rfl rfl (fun _ hbytes => .inl hbytes) nofun
    · cases h
  case delete i =>
    split at h <;> rename_i hi
    · cases h
      exact hs.moved hi rfl rfl nofun nofun
    · cases h
  case rename i =>
    split at h
    case h_1 content bytes hi hbytes =>
      cases h
      refine hs.moved hi rfl rfl (fun moved hmoved => .inr ?_) nofun
      cases hmoved
      cases hbytes.symm.trans (hpart.parted i content (.inr hi))
      rfl
    case h_2 content hi hnone =>
      cases h
      exact hs.moved hi rfl rfl (fun _ hbytes => .inl hbytes) nofun
    case h_3 => cases h
  case stop =>
    cases h
    exact hs.stopped rfl rfl rfl
  case stopWriting i room =>
    split at h
    · cases h
      exact hs.stopped rfl rfl rfl
    · cases h
  all_goals
    split at h <;> rename_i hi
    · cases h
      exact hs.moved hi rfl rfl (fun _ hbytes => .inl hbytes) nofun
    · cases h

/-- A file that `put` finds is the one it was to write. -/
theorem Contents.checked (hs : Contents blob initial s)
    (hinitial : ∀ b ∈ blob, ∀ bytes ∈ initial, bytes = b) {i : Nat} {content : Bytes}
    (hi : s.At i content .checking) (hfile : s.file.isSome = true) : s.file = some content := by
  obtain ⟨b, hb⟩ := Option.isSome_iff_exists.mp (hs.checks i content hi)
  obtain ⟨bytes, hbytes⟩ := Option.isSome_iff_exists.mp hfile
  have hsame : bytes = b := by
    rcases hs.whole bytes hbytes with hold | ⟨j, stage, hj⟩
    · exact hinitial b hb bytes hold
    · exact hs.ofBlob b hb j bytes stage hj
  rw [hbytes, hsame, hs.ofBlob b hb i content .checking hi]

/-- The file is there, or a call is about to put it back. -/
structure InPlace (s : AppFile) : Prop where
  seen : s.file.isSome = true → s.existed = true
  resolvedSeen : s.resolved ≠ [] → s.existed = true
  present : s.existed = true → s.file.isSome = true ∨ ∃ i content, s.At i content .renaming
  kept : ∀ i ∈ s.resolved.getLast?, s.file = none ∨
    ∃ content, s.At i content .resolved ∧ s.file = some content

/-- What the calls are about to do changes, and nothing that is in place. -/
theorem InPlace.same (hs : InPlace s) (hfile : t.file = s.file) (hexisted : t.existed = s.existed)
    (hresolved : t.resolved = s.resolved)
    (hpresent : s.existed = true → s.file.isSome = true ∨ ∃ i content, t.At i content .renaming)
    (hkept : ∀ i content, s.At i content .resolved → t.At i content .resolved) : InPlace t where
  seen := by
    rw [hfile, hexisted]
    exact hs.seen
  resolvedSeen := by
    rw [hresolved, hexisted]
    exact hs.resolvedSeen
  present := by
    rw [hfile, hexisted]
    exact hpresent
  kept i hi := by
    rw [hresolved] at hi
    rw [hfile]
    exact (hs.kept i hi).imp_right fun ⟨content, hat, h⟩ => ⟨content, hkept i content hat, h⟩

/-- A call moves that neither has resolved nor is about to put the file back. -/
theorem InPlace.moved (hs : InPlace s) {i : Nat} {content : Bytes} {stage : WriteStage}
    (hcalls : t.calls = (s.move i content stage).calls) (hfile : t.file = s.file)
    (hexisted : t.existed = s.existed) (hresolved : t.resolved = s.resolved)
    (hrenaming : ∀ bytes, ¬ s.At i bytes .renaming)
    (hdone : ∀ bytes, ¬ s.At i bytes .resolved) : InPlace t := by
  have hother : ∀ j bytes stage', s.At j bytes stage' → j ≠ i → t.At j bytes stage' := by
    intro j bytes stage' hj hne
    simp only [At, hcalls]
    exact at_move.mpr (.inr ⟨hne, hj⟩)
  refine hs.same hfile hexisted hresolved (fun hseen => ?_) fun j bytes hj => ?_
  · refine (hs.present hseen).imp_right fun ⟨j, bytes, hj⟩ => ⟨j, bytes, hother j bytes _ hj ?_⟩
    rintro rfl
    exact hrenaming bytes hj
  · refine hother j bytes _ hj ?_
    rintro rfl
    exact hdone bytes hj

theorem InPlace.moved_from (hs : InPlace s) {i : Nat} {content : Bytes} {old stage : WriteStage}
    (hi : s.At i content old) (hcalls : t.calls = (s.move i content stage).calls)
    (hfile : t.file = s.file) (hexisted : t.existed = s.existed)
    (hresolved : t.resolved = s.resolved) (hrenaming : old ≠ .renaming) (hdone : old ≠ .resolved) :
    InPlace t := by
  apply hs.moved hcalls hfile hexisted hresolved
  · intro bytes h
    exact hrenaming (at_unique hi h).2
  · intro bytes h
    exact hdone (at_unique hi h).2

/-- A call resolves with its content in place. -/
theorem inPlace_resolve {i : Nat} {content : Bytes} (hseen : t.existed = true)
    (hfile : t.file = some content) (hresolved : t.resolved = s.resolved ++ [i])
    (hcalls : t.calls = (s.move i content .resolved).calls) : InPlace t where
  seen _ := hseen
  resolvedSeen _ := hseen
  present _ := .inl (by rw [hfile]; rfl)
  kept j hj := by
    rw [hresolved, List.getLast?_concat, Option.mem_some_iff] at hj
    subst hj
    refine .inr ⟨content, ?_, hfile⟩
    simp only [At, hcalls]
    exact at_move.mpr (.inl ⟨rfl, rfl, rfl⟩)

theorem inPlace_stopped (hs : InPlace s) (hcalls : t.calls = s.stopped.calls)
    (hfile : t.file = s.file) (hexisted : t.existed = s.existed)
    (hresolved : t.resolved = s.resolved)
    (hpresent : s.existed = true → s.file.isSome = true) : InPlace t := by
  refine hs.same hfile hexisted hresolved (fun hseen => .inl (hpresent hseen)) ?_
  intro i content hi
  simp only [At, hcalls]
  exact at_stopped.mpr ⟨.resolved, hi, rfl⟩

theorem inPlace_step {action : FileAction} (hinitial : ∀ b ∈ blob, ∀ bytes ∈ initial, bytes = b)
    (hs : InPlace s) (hcontents : Contents blob initial s) (hpart : Temporary s)
    (hC : s.Orderly action) (h : step blob s action = some t) : InPlace t := by
  cases action <;> simp only [step] at h
  case start content =>
    split at h
    · cases h
      refine hs.moved rfl rfl rfl rfl ?_ ?_
      · exact fun bytes hi => Nat.lt_irrefl _ (hcontents.bound _ _ _ hi)
      · exact fun bytes hi => Nat.lt_irrefl _ (hcontents.bound _ _ _ hi)
    · cases h
  case check i =>
    split at h
    case h_1 content hi =>
      split at h <;> rename_i hfile
      · cases h
        exact inPlace_resolve (hs.seen hfile) (hcontents.checked hinitial hi hfile) rfl rfl
      · cases h
        exact hs.moved_from hi rfl rfl rfl rfl nofun nofun
    case h_2 => cases h
  case delete i =>
    split at h
    case h_1 content hi =>
      cases h
      exact {
        seen := nofun
        resolvedSeen := hs.resolvedSeen
        present := fun _ => .inr ⟨i, content, at_move.mpr (.inl ⟨rfl, rfl, rfl⟩)⟩
        kept := fun _ _ => .inl rfl }
    case h_2 => cases h
  case rename i =>
    split at h
    case h_1 content bytes hi hbytes =>
      cases h
      cases hbytes.symm.trans (hpart.parted i content (.inr hi))
      exact inPlace_resolve rfl rfl rfl rfl
    case h_2 content hi hnone => cases hnone.symm.trans (hpart.parted i content (.inr hi))
    case h_3 => cases h
  case renameFails i =>
    split at h
    case h_1 content hi =>
      cases h
      refine hs.same rfl rfl rfl (fun hseen => .inl (hC hseen)) fun j bytes hj => ?_
      refine at_move.mpr (.inr ⟨?_, hj⟩)
      rintro rfl
      cases (at_unique hi hj).2
    case h_2 => cases h
  case stop =>
    cases h
    exact inPlace_stopped hs rfl rfl rfl rfl hC
  case stopWriting i room =>
    split at h
    · cases h
      exact inPlace_stopped hs rfl rfl rfl rfl hC.2
    · cases h
  all_goals
    split at h <;> rename_i hi
    · cases h
      exact hs.moved_from hi rfl rfl rfl rfl nofun nofun
    · cases h

theorem not_holding_opened (i : Nat) : ¬ (opened initial).Holding i := by
  rintro ⟨content, h | h⟩ <;> cases h

theorem contents_opened : Contents blob initial (opened initial) where
  ofBlob _ _ _ _ _ := nofun
  checks _ _ := nofun
  bound _ _ _ := nofun
  whole _ hbytes := .inl hbytes

theorem inPlace_opened : InPlace (opened initial) where
  seen := id
  resolvedSeen h := absurd rfl h
  present := .inl
  kept _ := nofun

/-- Between the calls, what is in place is whole. -/
theorem InPlace.whole (hs : InPlace s) (hcontents : Contents blob initial s)
    (hquiet : ∀ i content, ¬ s.At i content .renaming) : Whole initial s := by
  have hpresent : s.existed = true → s.file.isSome = true := fun hseen =>
    (hs.present hseen).resolve_right fun ⟨i, content, hi⟩ => hquiet i content hi
  refine ⟨hpresent, hcontents.whole, fun before i after hresolved => ?_⟩
  have hthere : s.file ≠ none := by
    intro hnone
    have hseen := hpresent (hs.resolvedSeen (by rw [hresolved]; simp))
    rw [hnone] at hseen
    cases hseen
  have hlast : s.resolved.getLast? = some ((i :: after).getLast (List.cons_ne_nil i after)) := by
    rw [hresolved, List.getLast?_append, List.getLast?_eq_some_getLast]
    rfl
  obtain ⟨content, hat, hfile⟩ := (hs.kept _ hlast).resolve_left hthere
  exact ⟨_, List.getLast_mem _, content, .resolved, hat, hfile⟩

/-- Of orderly calls, the file is replaced whole: once no call is between its delete and its
rename, the path holds what it held or what a call wrote. -/
theorem replaced_whole (blob initial : Option Bytes)
    (hinitial : ∀ b ∈ blob, ∀ bytes ∈ initial, bytes = b) (actions : List FileAction) (t : AppFile)
    (h : play (step blob) (opened initial) actions = some t)
    (hmeets : Meets (step blob) Orderly (opened initial) actions)
    (hquiet : ∀ i content, ¬ t.At i content .renaming) : Whole initial t := by
  have hinv : Temporary t ∧ Contents blob initial t ∧ InPlace t := by
    refine hmeets.keeps (P := fun s => Temporary s ∧ Contents blob initial s ∧ InPlace s) ?_ h ?_
    · rintro s action u ⟨hpart, hcontents, hplace⟩ hC hstep
      exact ⟨temporary_step hpart hC hstep, contents_step hcontents hpart hstep,
        inPlace_step hinitial hplace hcontents hpart hC hstep⟩
    · exact ⟨temporary_of_none not_holding_opened, contents_opened, inPlace_opened⟩
  exact hinv.2.2.whole hinv.2.1 hquiet

/-- A file is replaced. -/
theorem replaced_whole_once : ∃ t, play (step none) (opened (some [1]))
    [.start [2], .write 0, .delete 0, .rename 0] = some t ∧ t.file = some [2] ∧
      Whole (some [1]) t := by
  refine ⟨_, rfl, rfl, replaced_whole none (some [1]) nofun
    [.start [2], .write 0, .delete 0, .rename 0] _ rfl ?_ ?_⟩
  · refine .cons trivial rfl (.cons (fun i hi => ?_) rfl (.cons trivial rfl (.cons trivial rfl
      trivial)))
    rcases holding_move.mp hi with ⟨-, hstage⟩ | ⟨-, hi⟩
    · exact hstage.elim nofun nofun
    · exact not_holding_opened i hi
  · intro i content hi
    match i with
    | 0 => cases hi
    | i + 1 => cases hi

/-- The process stops between the delete and the rename. -/
theorem not_replaced_whole_stopped : ∃ t, play (step none) (opened (some [1]))
    [.start [2], .write 0, .delete 0, .stop] = some t ∧
      (∀ i content, ¬ t.At i content .renaming) ∧ t.file = none ∧ ¬ Whole (some [1]) t := by
  refine ⟨_, rfl, fun i content hi => not_holding_stopped i ⟨content, .inr hi⟩, rfl, fun h => ?_⟩
  cases h.present rfl

/-- Two calls store one blob; the second deletes what the first has put in place. -/
theorem not_replaced_whole_overlapping : ∃ t, play (step (some [1])) (opened none)
    [.start [1], .start [1], .check 0, .check 1, .write 0, .write 1, .delete 0, .rename 0, .delete 1,
      .rename 1] = some t ∧
      (∀ i content, ¬ t.At i content .renaming) ∧ t.file = none ∧ ¬ Whole none t := by
  refine ⟨_, rfl, fun i content hi => ?_, rfl, fun h => ?_⟩
  · match i with
    | 0 => cases hi
    | 1 => cases hi
    | i + 2 => cases hi
  · cases h.present rfl

end AppFile

end PassVault
