import PassVault.Services.Combining
import PassVault.Sync.HistoryViews
import PassVault.Sync.VaultIsolation

/-!
# Fast-forwards

`fastForward` moves the head without asking, at the end of a session, while other calls move it too.
What it leaves behind.
-/

namespace PassVault

open Async Relation

instance (t : Tables) (x z : RevisionId) : Decidable (t.Contains x z) :=
  decidable_of_iff (z ∈ t.ancestorIdsOf x) Tables.mem_ancestorIdsOf

namespace DeviceEvent

/-- No fast-forward begins, and none moves the head. -/
def plain : DeviceEvent → Prop
  | engine (.advancing ..) => False
  | engine (.wroteVault _ (.moved headEvent _)) => headEvent.reason ≠ .fastForward
  | _ => True

/-- `fastForward` is called while the revision contains the head, if there is one. -/
def Ahead (s : Device) : DeviceEvent → Prop
  | engine (.advancing vaultId revisionId _) =>
    ∀ head ∈ s.head vaultId, s.store.tables.Contains revisionId head
  | _ => True

/-- A fast-forward moves the head to a revision that contains the previous one, if there is one. -/
def KeepsWork (s : Device) : DeviceEvent → Prop
  | engine (.wroteVault _ (.moved headEvent _)) => headEvent.reason = .fastForward →
    ∀ previous ∈ headEvent.previousRevisionId,
      s.store.tables.Contains headEvent.nextRevisionId previous
  | _ => True

end DeviceEvent

namespace DeviceEvent

instance (s : Device) : DecidablePred (Ahead s)
  | engine (.advancing ..) => inferInstanceAs (Decidable (∀ _ ∈ _, _))
  | engine (.saved _) | engine (.wroteVault ..) | engine (.called ..) | engine (.unchanged ..)
  | output _ | started _ | settled .. | readSaved _ | wroteFile .. | writeFailed _ | cleared ..
  | heldBack | based .. | opened _ | decided _ => isTrue trivial

instance (s : Device) : DecidablePred (KeepsWork s)
  | engine (.wroteVault _ (.moved ..)) => inferInstanceAs (Decidable (_ → ∀ _ ∈ _, _))
  | engine (.wroteVault _ .created) | engine (.wroteVault _ (.imported _))
  | engine (.wroteVault _ (.recorded ..)) | engine (.wroteVault _ .adopted)
  | engine (.wroteVault _ .bound) | engine (.advancing ..) | engine (.saved _)
  | engine (.called ..) | engine (.unchanged ..) | output _ | started _ | settled ..
  | readSaved _ | wroteFile .. | writeFailed _ | cleared .. | heldBack | based .. | opened _
  | decided _ => isTrue trivial

end DeviceEvent

/-- A head that the verdict finds behind the peer's is contained in it, where the peer has told the
stored parents of what is stored here. -/
theorem contains_of_verdict {sha256 : Bytes → Sha256Hex} {s : Device} {vaultId : VaultId}
    {summary : List HistorySummaryEntry} {remoteHead : RevisionId}
    (hs : s.store.WellFormed sha256)
    (hstored : s.store.tables.hasRevision remoteHead = true)
    (htold : ∀ x p, Parent (buildGraph (summaryNodes summary)) x p →
      s.store.tables.hasRevision x = true → s.store.tables.StoredParent x p)
    (hahead : s.store.tables.sessionVerdict vaultId (buildGraph (summaryNodes summary))
      (some remoteHead) = .remoteAhead) :
    ∀ head ∈ s.head vaultId, s.store.tables.Contains remoteHead head := by
  intro head hhead
  have hpath : ReflTransGen
      (Parent (s.store.tables.union vaultId (buildGraph (summaryNodes summary)))) remoteHead
      head := by
    have hhead : s.store.tables.headOf vaultId = some head := hhead
    unfold Tables.sessionVerdict at hahead
    rw [hhead] at hahead
    exact classifyDivergence_remoteAhead hahead
  have hparent (x p : RevisionId) (hx : s.store.tables.hasRevision x = true)
      (hp : Parent (s.store.tables.union vaultId (buildGraph (summaryNodes summary))) x p) :
      s.store.tables.StoredParent x p := by
    rw [Tables.union, parent_unionGraphs] at hp
    rcases hp with ⟨-, hp⟩ | ⟨-, hp⟩
    · exact htold x p hp hx
    · exact (((Tables.graphOf_historySummary _ vaultId).parent x p).mp hp).2
  have hreach : s.store.tables.Contains remoteHead head ∧
      s.store.tables.hasRevision head = true := by
    clear hhead hahead
    induction hpath with
    | refl => exact ⟨.refl, hstored⟩
    | tail _ hp ih =>
      have hstoredParent := hparent _ _ ih.2 hp
      exact ⟨ih.1.tail hstoredParent, (hs.closed _ _ hstoredParent).2⟩
  exact hreach.1

/-! ## Calls that fast-forward nothing -/

/-- No fast-forward begins or ends in the program. -/
abbrev Plain {α : Type} (p : OnDevice α) : Prop :=
  Within (fun _ events _ => ∀ e ∈ events, e.plain) p

section Plain

variable {α : Type}

theorem plain_act {f : Device → Device × List DeviceEvent} {next : Device → OnDevice α}
    (h : ∀ s, ∀ e ∈ (f s).2, e.plain) (hnext : ∀ s, Plain (next s)) : Plain (.act f next) :=
  fun s => ⟨h s, hnext s⟩

theorem plain_await {ready : Device → Bool} {p : OnDevice α} (h : Plain p) :
    Plain (.await ready p) :=
  h

theorem plain_read (f : Device → α) : Plain (Async.read f : OnDevice α) :=
  plain_act (fun _ => by simp) fun _ => trivial

theorem plain_query (f : Tables → α) : Plain (query f : OnDevice α) :=
  plain_act (fun _ => by simp) fun _ => trivial

theorem plain_execute {f : Tables → Except Failure Tables} {events : List DeviceEvent}
    (h : ∀ e ∈ events, e.plain) : Plain (execute f events : OnDevice Unit) :=
  within_execute (fun _ => by simp) fun _ _ => h

theorem plain_report {e : EngineEvent Nat} (h : (DeviceEvent.engine e).plain) :
    Plain (SyncEngine.report e : OnDevice Unit) :=
  plain_act (fun _ _ he => List.mem_singleton.mp he ▸ h) fun _ => trivial

theorem plain_putBlob (sha256 : Bytes → Sha256Hex) (bytes : Bytes) :
    Plain (putBlob sha256 bytes : OnDevice Sha256Hex) :=
  plain_act (fun _ => by simp [changeStore]) fun _ => trivial

theorem plain_getBlob (hash : Sha256Hex) : Plain (getBlob hash : OnDevice Bytes) := by
  refine plain_act (fun _ => by simp) fun s => ?_
  apply plain_await
  split <;> trivial

theorem plain_transaction {body : OnDevice α} (h : Plain body) : Plain (transaction body) :=
  within_transaction (fun _ => by simp) (fun _ _ => by simp) h

/-! The engine. -/

theorem plain_requireVault (vaultId : VaultId) :
    Plain (SyncEngine.requireVault vaultId : OnDevice Vault) := by
  apply Within.bind (plain_query _)
  intro vault
  cases vault <;> trivial

theorem plain_requireRevision (revisionId : RevisionId) :
    Plain (SyncEngine.requireRevision revisionId : OnDevice Revision) := by
  apply Within.bind (plain_query _)
  intro revision
  cases revision <;> trivial

theorem plain_bytesOf (revisionId : RevisionId) :
    Plain (SyncEngine.bytesOf revisionId : OnDevice Bytes) :=
  Within.bind (plain_requireRevision _) fun _ => plain_getBlob _

theorem plain_appendHeadEvent (headEvent : HeadRevisionEvent) :
    Plain (SyncEngine.appendHeadEvent headEvent : OnDevice Unit) :=
  plain_execute (by simp)

theorem plain_saveRevision (revision : Revision) :
    Plain (SyncEngine.saveRevision revision : OnDevice Unit) :=
  plain_execute fun _ he => List.mem_singleton.mp he ▸ trivial

theorem plain_saveVault {vault : Vault} {why : VaultWrite Nat}
    (h : (DeviceEvent.engine (.wroteVault vault why)).plain) :
    Plain (SyncEngine.saveVault vault why : OnDevice Unit) :=
  plain_execute fun _ he => List.mem_singleton.mp he ▸ h

theorem plain_recordLocalChange (deps : EngineDeps) (stamp : Stamp) (vaultId : VaultId)
    (bytes : Bytes) (origin : Nat) :
    Plain (SyncEngine.recordLocalChange deps stamp vaultId bytes origin :
      OnDevice LocalChangeResult) := by
  apply Within.bind (plain_report (by trivial))
  intro _
  apply Within.bind (plain_requireVault _)
  intro vault
  have hhead : Plain (SyncEngine.headWithHash vault.headRevisionId (deps.sha256 bytes) :
      OnDevice (Option RevisionId)) := by
    cases vault.headRevisionId with
    | none => trivial
    | some headRevisionId =>
      apply Within.bind (plain_query _)
      intro head
      cases head <;> trivial
  apply Within.bind hhead
  intro same
  split
  · exact Within.bind (plain_report (by trivial)) fun _ => trivial
  · apply Within.bind (plain_putBlob _ _)
    intro _
    apply plain_transaction
    apply Within.bind (plain_saveRevision _)
    intro _
    apply Within.bind (plain_saveVault (by trivial))
    intro _
    exact Within.bind (plain_appendHeadEvent _) fun _ => trivial

theorem plain_promote (now : Nat) (vaultId : VaultId) (revisionId : RevisionId) :
    Plain (SyncEngine.promote now vaultId revisionId : OnDevice Vault) := by
  apply Within.bind (plain_requireVault _)
  intro vault
  apply Within.bind (plain_requireRevision _)
  intro revision
  change Plain (Async.ofExcept (promoteRevision vault revision now) >>= _)
  cases hmove : promoteRevision vault revision now with
  | error => trivial
  | ok move =>
    obtain ⟨next, headEvent⟩ := move
    obtain ⟨-, hmove⟩ := moved_ok hmove
    cases hmove
    apply plain_transaction
    apply Within.bind (plain_saveVault (by simp [DeviceEvent.plain]))
    intro _
    exact Within.bind (plain_appendHeadEvent _) fun _ => trivial

theorem plain_requireRevisions (ids : List RevisionId) :
    Plain (SyncEngine.requireRevisions ids : OnDevice (List Revision)) := by
  refine plain_act (fun _ => by simp) fun s => ?_
  apply plain_await
  split <;> trivial

theorem plain_incomingBytes (revisions : List Revision) :
    Plain (SyncEngine.incomingBytes revisions : OnDevice (List (RevisionId × Bytes))) := by
  induction revisions with
  | nil => trivial
  | cons revision rest ih =>
    apply Within.bind (plain_getBlob _)
    intro bytes
    exact Within.bind ih fun _ => trivial

theorem plain_merge (deps : EngineDeps) (stamp : Stamp) (vaultId : VaultId)
    (baseRevisionId : RevisionId) (incomingRevisionIds : List RevisionId)
    (message : Option String) :
    Plain (SyncEngine.merge deps stamp vaultId baseRevisionId incomingRevisionIds message :
      OnDevice MergeOutcome) := by
  apply Within.bind (plain_requireRevision _)
  intro base
  apply Within.bind (plain_requireRevisions _)
  intro incoming
  apply Within.bind (plain_getBlob _)
  intro baseBytes
  apply Within.bind (plain_incomingBytes _)
  intro incomingBytes
  split
  · trivial
  · trivial
  · apply Within.bind (plain_putBlob _ _)
    intro hash
    apply Within.bind (.ofExcept _)
    intro revision
    exact Within.bind (plain_saveRevision _) fun _ => trivial

theorem plain_firstMissing (ids : List RevisionId) :
    Plain (SyncEngine.firstMissing ids : OnDevice (Option RevisionId)) := by
  induction ids with
  | nil => trivial
  | cons id rest ih =>
    apply Within.bind (plain_query _)
    intro stored
    split
    · exact ih
    · trivial

theorem plain_ingestReceivedRevision (deps : EngineDeps) (now : Nat) (input : IngestInput) :
    Plain (SyncEngine.ingestReceivedRevision deps now input : OnDevice IngestResult) := by
  apply Within.bind (plain_query _)
  intro stored
  split
  · trivial
  · dsimp only
    split
    · trivial
    · apply Within.bind (plain_firstMissing _)
      intro missing
      cases missing with
      | some => trivial
      | none =>
        apply Within.bind (plain_putBlob _ _)
        intro _
        apply Within.bind (.ofExcept _)
        intro revision
        exact Within.bind (plain_saveRevision _) fun _ => trivial

/-! The file. -/

theorem plain_isLocked (platform : Platform) (path : FilePath) :
    Plain (VaultFile.isLocked platform path) := by
  cases platform with
  | desktop => exact plain_act (fun _ => by simp) fun _ => trivial
  | android => trivial

theorem plain_put (after : Device → Device) (path : FilePath) (bytes : Bytes) :
    Plain (VaultFile.put after path bytes) := by
  refine plain_act (fun s => ?_) fun s => ?_
  · intro e he
    split at he <;> rw [List.mem_singleton.mp he] <;> trivial
  · change Plain (if s.medium = .sound then _ else _)
    split <;> trivial

theorem plain_write (platform : Platform) (path : FilePath) (bytes : Bytes) (ignoreLock : Bool) :
    Plain (VaultFile.write platform path bytes ignoreLock) := by
  cases platform with
  | desktop =>
    have hwrite (locked : Bool) : Plain (do
        if locked then
          return .refusedLocked
        Async.pause
        VaultFile.put id path bytes) := by
      split
      · trivial
      · exact plain_put _ _ _
    change Plain (VaultFile.writeAtomic path bytes ignoreLock)
    unfold VaultFile.writeAtomic
    split
    · exact hwrite false
    · exact Within.bind (plain_isLocked _ _) hwrite
  | android =>
    refine plain_act (fun _ => by simp) fun s => ?_
    change Plain (if s.granted path then _ else _)
    split
    · exact plain_put _ _ _
    · trivial

theorem plain_readSaved (path : FilePath) : Plain (VaultFile.readSaved path) := by
  refine plain_act (fun _ _ he => List.mem_singleton.mp he ▸ trivial) fun s => ?_
  apply plain_await
  split <;> trivial

namespace VaultServices

variable (deps : ServiceDeps)

theorem plain_clearHeldBackUpdate {events : List DeviceEvent} (h : ∀ e ∈ events, e.plain) :
    Plain (clearHeldBackUpdate events) :=
  plain_act (fun _ => h) fun _ => trivial

theorem plain_currentVersion : Plain currentVersion := by
  apply Within.bind (plain_read _)
  intro vaultId
  cases vaultId with
  | none => trivial
  | some vaultId =>
    apply Within.bind (plain_read _)
    intro seen
    apply Within.bind (plain_query _)
    intro vault
    split
    · trivial
    · split
      · apply Within.bind (plain_query _)
        intro head
        cases head <;> trivial
      · trivial

theorem plain_holds (path : FilePath) (hash : Sha256Hex) : Plain (holds deps path hash) := by
  have hread : Plain (VaultFile.read path) := by
    refine plain_act (fun _ => by simp) fun s => ?_
    apply plain_await
    split <;> trivial
  apply Within.bind hread.attempt
  intro onDisk
  cases onDisk <;> trivial

theorem plain_materializeCurrentVersion : Plain (materializeCurrentVersion deps) := by
  apply Within.bind plain_currentVersion
  intro version
  split
  · trivial
  · apply Within.bind (plain_holds deps _ _)
    intro same
    split
    · exact plain_clearHeldBackUpdate fun _ he => List.mem_singleton.mp he ▸ trivial
    · apply Within.bind (plain_isLocked _ _)
      intro locked
      split
      · exact plain_act (fun _ _ he => List.mem_singleton.mp he ▸ trivial) fun _ => trivial
      · apply Within.bind (plain_bytesOf _)
        intro bytes
        apply Within.bind (plain_write _ _ _ _)
        intro outcome
        exact plain_clearHeldBackUpdate fun _ he => List.mem_singleton.mp he ▸ trivial

theorem plain_trackedPath (vaultId : VaultId) : Plain (trackedPath vaultId) :=
  Within.bind (plain_query _) fun _ => trivial

theorem plain_requireVaultId : Plain requireVaultId := by
  apply Within.bind (plain_read _)
  intro vaultId
  cases vaultId <;> trivial

theorem plain_record (stamp : Stamp) (vaultId : VaultId) (saved : Bytes × Nat) :
    Plain (record deps stamp vaultId saved) := by
  apply Within.bind (plain_recordLocalChange _ _ _ _ _)
  intro result
  cases result with
  | recorded => exact plain_clearHeldBackUpdate (by simp)
  | unchanged => trivial

theorem plain_recordFileNow (stamp : Stamp) : Plain (recordFileNow deps stamp) := by
  apply Within.bind (plain_read _)
  intro vaultId
  cases vaultId with
  | none => trivial
  | some vaultId =>
    apply Within.bind (plain_trackedPath _)
    intro path
    cases path with
    | none => trivial
    | some path => exact Within.bind (plain_readSaved _) fun _ => plain_record deps _ _ _

theorem plain_onChange (stamp : Stamp) (saved : Bytes × Nat) :
    Plain (onChange deps stamp saved) := by
  apply Within.bind (plain_read _)
  intro vaultId
  cases vaultId with
  | none => trivial
  | some vaultId => exact plain_record deps _ _ _

theorem plain_deliver (stamp : Stamp) (path : FilePath) : Plain (deliver deps stamp path) := by
  apply Within.bind (plain_readSaved _).attempt
  intro saved
  cases saved with
  | ok saved => exact plain_onChange deps _ _
  | error =>
    apply Within.bind (p := Async.pause) trivial
    intro _
    apply Within.bind (plain_readSaved _).attempt
    intro saved
    cases saved with
    | ok saved => exact plain_onChange deps _ _
    | error => trivial

theorem plain_saveConflict (conflict : Conflict) {event : DeviceEvent} (h : event.plain) :
    Plain (saveConflict conflict event) :=
  plain_execute fun _ he => List.mem_singleton.mp he ▸ h

theorem plain_decideAll (now : Nat) (decision : ConflictDecision) (conflicts : List Conflict) :
    Plain (decideAll now decision conflicts) := by
  induction conflicts with
  | nil => trivial
  | cons conflict rest ih =>
    apply Within.bind (.ofExcept _)
    intro decided
    exact Within.bind (plain_saveConflict _ (by trivial)) fun _ => ih

theorem plain_resolveConflict (now : Nat) (conflictId : ConflictId) (choice : ConflictChoice) :
    Plain (resolveConflict deps now conflictId choice) := by
  apply Within.bind plain_requireVaultId
  intro vaultId
  apply Within.bind (plain_query _)
  intro conflicts
  split
  · trivial
  · have hdecide (conflict : Conflict) : Plain (do
        decideAll now choice.decision [conflict]
        materializeCurrentVersion deps) :=
      Within.bind (plain_decideAll _ _ _) fun _ => plain_materializeCurrentVersion deps
    split
    · exact Within.bind (plain_promote _ _ _) fun _ => hdecide _
    · exact hdecide _

theorem plain_openConflictFor (now : Nat) (conflictId : ConflictId) (vaultId : VaultId)
    (incomingRevisionId : RevisionId) :
    Plain (openConflictFor now conflictId vaultId incomingRevisionId) := by
  apply Within.bind (plain_query _)
  intro vault
  have hrevision (revisionId : Option RevisionId) : Plain (revisionOf revisionId) := by
    cases revisionId with
    | none => trivial
    | some revisionId => exact plain_query (·.getRevision revisionId)
  apply Within.bind (hrevision _)
  intro current
  apply Within.bind (plain_query _)
  intro incoming
  split
  · apply Within.bind (plain_query _)
    intro existing
    split
    · trivial
    · apply Within.bind (.ofExcept _)
      intro conflict
      exact Within.bind (plain_saveConflict _ (by trivial)) fun _ => trivial
  · trivial

theorem plain_mergeCall (stamp : Stamp) (baseRevisionId : RevisionId)
    (incomingRevisionIds : List RevisionId) :
    Plain (merge deps stamp baseRevisionId incomingRevisionIds) := by
  apply Within.bind plain_requireVaultId
  intro vaultId
  apply Within.bind (plain_merge _ _ _ _ _ _)
  intro outcome
  cases outcome <;> trivial

theorem plain_combineAndUse (stamp : Stamp) (otherVersionId : RevisionId) :
    Plain (combineAndUse deps stamp otherVersionId) := by
  apply Within.bind plain_requireVaultId
  intro vaultId
  apply Within.bind (plain_query _)
  intro vault
  split
  · trivial
  · have hreport (e : DeviceEvent) (h : e.plain) : Plain (report e) :=
      plain_act (fun _ _ he => List.mem_singleton.mp he ▸ h) fun _ => trivial
    apply Within.bind (hreport _ (by trivial))
    intro _
    apply Within.bind (plain_mergeCall deps _ _ _)
    intro outcome
    split
    · apply Within.bind (plain_promote _ _ _)
      intro _
      apply Within.bind (plain_query _)
      intro conflicts
      apply Within.bind (plain_decideAll _ _ _)
      intro _
      exact Within.bind (plain_materializeCurrentVersion deps) fun _ => trivial
    · trivial

theorem plain_applyPendingUpdate : Plain (applyPendingUpdate deps) := by
  apply Within.bind (plain_read _)
  intro vaultId
  cases vaultId with
  | none => trivial
  | some vaultId =>
    apply Within.bind (plain_trackedPath _)
    intro path
    cases path with
    | none => trivial
    | some path =>
      apply Within.bind (plain_isLocked _ _)
      intro locked
      split
      · trivial
      · exact Within.bind (plain_materializeCurrentVersion deps) fun _ => trivial

theorem plain_writeBack (revisionId : RevisionId) (ignoreLock : Bool) :
    Plain (writeBack deps revisionId ignoreLock) := by
  apply Within.bind (plain_read _)
  intro vaultId
  cases vaultId with
  | none => trivial
  | some vaultId =>
    apply Within.bind (plain_trackedPath _)
    intro path
    cases path with
    | none => trivial
    | some path =>
      have hwrite : Plain (writeRevision deps path revisionId ignoreLock) := by
        apply Within.bind (plain_bytesOf _)
        intro bytes
        apply Within.bind (plain_write _ _ _ _)
        intro outcome
        cases outcome <;> trivial
      apply Within.bind hwrite.attempt
      intro outcome
      cases outcome <;> trivial

theorem plain_saveVaultAs (path : FilePath) : Plain (saveVaultAs deps path) := by
  apply Within.bind plain_requireVaultId
  intro vaultId
  apply Within.bind (plain_query _)
  intro vault
  split
  · trivial
  · rename_i headRevisionId _
    have hbind : Plain (SyncEngine.bindVaultToFile vaultId path : OnDevice Vault) := by
      apply Within.bind (plain_requireVault _)
      intro vault
      exact Within.bind (plain_saveVault (by trivial)) fun _ => trivial
    have hsave : Plain (saveHeadAs deps vaultId headRevisionId path) := by
      apply Within.bind (plain_bytesOf _)
      intro bytes
      apply Within.bind (plain_write _ _ _ _)
      intro outcome
      exact Within.bind hbind fun _ => trivial
    apply Within.bind hsave.attempt
    intro outcome
    cases outcome <;> trivial

theorem plain_classify (vaultId : VaultId) (graph : RevisionGraph)
    (remoteHead : Option RevisionId) :
    Plain (SyncSession.classify vaultId graph remoteHead : OnDevice Divergence) := by
  apply Within.bind (plain_query _)
  intro vault
  split
  · trivial
  · trivial
  · trivial
  · exact Within.bind (plain_query _) fun _ => trivial

theorem plain_ingestNext (now : Nat) (inbound : InboundHeader) (bytes : Bytes) :
    Plain (SyncSession.ingestNext 0 deps.toEngineDeps now inbound bytes : OnDevice Unit) := by
  have hsession (f : Session → Session × List Output) :
      Plain (SyncSession.onSession 0 f : OnDevice Unit) := by
    refine plain_act (fun s e he => ?_) fun _ => trivial
    obtain ⟨output, -, rfl⟩ := List.mem_map.mp he
    trivial
  have hingest : Plain
      (SyncSession.ingest 0 deps.toEngineDeps now inbound bytes : OnDevice Unit) := by
    apply Within.bind (plain_ingestReceivedRevision _ _ _)
    intro result
    cases result <;> exact hsession _
  have hreject : Plain
      (SyncSession.ingestOrReject 0 deps.toEngineDeps now inbound bytes : OnDevice Unit) := by
    apply Within.bind hingest.attempt
    intro result
    cases result with
    | ok => trivial
    | error => exact hsession _
  apply Within.bind (hsession _)
  intro _
  exact Within.bind hreject.attempt fun _ => hsession _

end VaultServices

end Plain

/-! ## Calls that fast-forward -/

/-- A fast-forward that has begun: where it leads, and the head that it has read. -/
structure Forward where
  revisionId : RevisionId
  head : Option RevisionId

/-- A fast-forward moves the head that it has read to where it leads. -/
inductive ForwardSteps :
    Option Forward → Device → List DeviceEvent → Device → Option Forward → Prop where
  | other {g : Option Forward} {s t : Device} {events : List DeviceEvent}
      (h : ∀ e ∈ events, e.plain) : ForwardSteps g s events t g
  | advances {s t : Device} {vaultId : VaultId} {revisionId : RevisionId} {origin : Nat} :
    ForwardSteps none s [.engine (.advancing vaultId revisionId origin)] t
      (some ⟨revisionId, s.head vaultId⟩)
  | moves {forward : Forward} {s t : Device} {vault : Vault} {headEvent : HeadRevisionEvent}
      {origin : Option Nat} (hnext : headEvent.nextRevisionId = forward.revisionId)
      (hprevious : headEvent.previousRevisionId = forward.head) :
    ForwardSteps (some forward) s [.engine (.wroteVault vault (.moved headEvent origin))] t none

def forwards : Discipline (Option Forward) Device DeviceEvent where
  inv _ := True
  rely _ _ := True
  cond _ _ := True
  next := ForwardSteps

theorem forwards_lawful : forwards.Lawful :=
  ⟨fun _ => trivial, fun _ _ _ _ _ => trivial, fun _ _ _ _ _ _ _ _ => ⟨trivial, trivial⟩⟩

section Forwards

variable {α : Type} {g : Option Forward} {s : Device}
  {post : Option Forward → Device → α → Prop} {onFail : Option Forward → Device → Prop}

theorem Plain.obeys {p : OnDevice α} (hp : Plain p) :
    Obeys forwards (fun g' _ _ => g' = g) (fun g' _ => g' = g) p g s :=
  Within.obeys (fun _ _ _ h _ => ForwardSteps.other h) hp trivial

/-- The rest of a program, of which nothing more is asked. -/
theorem Plain.ends {p : OnDevice α} (hp : Plain p) :
    Obeys forwards (fun _ _ _ => True) (fun _ _ => True) p g s :=
  (Plain.obeys hp).mono (fun _ _ _ _ => trivial) fun _ _ _ => trivial

theorem forwards_query {f : Tables → α} (h : ∀ t, post g t (f s.store.tables)) :
    Obeys forwards post onFail (query f : OnDevice α) g s :=
  fun _ => ⟨g, .other (by simp), fun _ t _ _ _ => h t⟩

theorem forwards_transaction {body : OnDevice α}
    (hbody : ∀ t, Obeys forwards (fun _ _ _ => True) (fun _ _ => True) body g t) :
    Obeys forwards (fun _ _ _ => True) (fun _ _ => True) (transaction body) g s := by
  have hplain {β : Type} {f : Store → Store} {next : Device → OnDevice β}
      {post : Option Forward → Device → β → Prop} {onFail : Option Forward → Device → Prop}
      {g : Option Forward} {t : Device} (h : ∀ u, Obeys forwards post onFail (next t) g u) :
      Obeys forwards post onFail (.act (changeStore f []) next) g t :=
    fun _ => ⟨g, .other (by simp [changeStore]), fun _ => h _⟩
  have hread {β : Type} {f : Device → β} {post : Option Forward → Device → β → Prop}
      {onFail : Option Forward → Device → Prop} {t : Device} (h : post g t (f t)) :
      Obeys forwards post onFail (Async.read f : OnDevice β) g t :=
    fun _ => ⟨g, .other (by simp), fun _ => h⟩
  refine Obeys.seq (hread ?_)
  split
  · exact hbody s
  · refine Obeys.seq (hread ?_)
    refine hplain fun _ t _ _ _ => ?_
    refine Obeys.seq (hplain fun u => ?_)
    refine Obeys.seq (Obeys.tryCatch (fun g' w e (_ : True) => ?_) ?_)
    · exact Obeys.seq (hplain fun _ _ _ _ _ => trivial)
    · refine (hbody u).mono (fun g' w a _ => ?_) fun _ _ _ => trivial
      exact Obeys.seq (hplain fun _ _ _ _ _ => trivial)

/-- The row that is moved is the one that was read when the fast-forward began. -/
theorem forwards_fastForward (now : Nat) (vaultId : VaultId) (revisionId : RevisionId)
    (origin : Nat) :
    Obeys forwards (fun _ _ _ => True) (fun _ _ => True)
      (SyncEngine.fastForward now vaultId revisionId origin : OnDevice Vault) none s := by
  intro _
  refine ⟨_, .advances, fun _ => ?_⟩
  have hvault : Obeys forwards
      (fun g' _ vault => g' = some ⟨revisionId, s.head vaultId⟩ ∧
        s.head vaultId = vault.headRevisionId) (fun _ _ => True)
      (SyncEngine.requireVault vaultId) (some ⟨revisionId, s.head vaultId⟩) s := by
    refine Obeys.seq (forwards_query fun t => ?_)
    cases hrow : s.store.tables.getVault vaultId with
    | none => trivial
    | some vault =>
      refine ⟨rfl, ?_⟩
      rw [Device.head, Tables.headOf, hrow]
      rfl
  refine hvault.bind fun g' t vault hread => ?_
  obtain ⟨rfl, hhead⟩ := hread
  have hrevision : Obeys forwards
      (fun g' _ revision => g' = some ⟨revisionId, s.head vaultId⟩ ∧ revision.id = revisionId)
      (fun _ _ => True) (SyncEngine.requireRevision revisionId)
      (some ⟨revisionId, s.head vaultId⟩) t := by
    refine Obeys.seq (forwards_query fun u => ?_)
    cases hrow : t.store.tables.getRevision revisionId with
    | none => trivial
    | some revision =>
      obtain ⟨row, hfind, rfl⟩ := Tables.getRevision_eq_some.mp hrow
      exact ⟨rfl, (Table.key_of_find hfind :)⟩
  refine hrevision.bind fun g' u revision hread => ?_
  obtain ⟨rfl, rfl⟩ := hread
  refine Obeys.seq (Obeys.ofExcept (fun move hmove => ?_) fun _ _ => trivial)
  obtain ⟨next, headEvent⟩ := move
  obtain ⟨-, hmove⟩ := moved_ok hmove
  cases hmove
  refine forwards_transaction fun w => ?_
  refine Obeys.seq fun _ => ⟨none, .moves rfl hhead.symm, fun _ _ _ _ _ => ?_⟩
  exact Plain.ends (Within.bind (plain_appendHeadEvent _) fun _ => trivial)

variable (deps : ServiceDeps)

theorem forwards_endSession (now : Nat) (conflictId : ConflictId) (session : SessionEnd) :
    Obeys forwards (fun _ _ _ => True) (fun _ _ => True)
      (VaultServices.endSession deps now conflictId session) none s := by
  have hfinish (divergence : Divergence) (t : Device) :
      Obeys forwards (fun _ _ _ => True) (fun _ _ => True)
        (VaultServices.finishSession deps now conflictId session.vaultId session.remoteHead
          divergence) none t := by
    intro _
    refine ⟨none, .other (by simp), fun _ => ?_⟩
    dsimp only [Async.bind]
    split
    · exact Plain.ends (Within.bind (VaultServices.plain_openConflictFor _ _ _ _) fun _ => trivial)
    · refine (forwards_fastForward _ _ _ _).bind fun g' u _ _ => ?_
      exact Plain.ends (VaultServices.plain_materializeCurrentVersion deps)
    · trivial
  have hclassify (graph : RevisionGraph) (t : Device) :
      Obeys forwards (fun _ _ _ => True) (fun _ _ => True) (do
        let divergence ← SyncSession.classify session.vaultId graph session.remoteHead
        VaultServices.finishSession deps now conflictId session.vaultId session.remoteHead
          divergence) none t := by
    have hplain := Plain.obeys (g := none) (s := t)
      (VaultServices.plain_classify session.vaultId graph session.remoteHead)
    refine (hplain.mono (fun _ _ _ h => h) fun _ _ _ => trivial).bind fun g' u divergence h => ?_
    cases h
    exact hfinish divergence u
  refine Obeys.seq (Obeys.ofExcept (fun _ _ => ?_) fun _ _ => trivial)
  split
  · rename_i head hhead
    have hhead : Plain (SyncEngine.recordPeerHead now session.remoteDeviceId session.vaultId head :
      OnDevice Unit) := plain_execute (by simp)
    have hplain := Plain.obeys (g := none) (s := s) hhead
    refine (hplain.mono (fun _ _ _ h => h) fun _ _ _ => trivial).bind fun g' u _ h => ?_
    cases h
    exact hclassify _ u
  · exact hclassify _ s

theorem forwards_run (call : ServiceCall) :
    Obeys forwards (fun _ _ _ => True) (fun _ _ => True) (call.run deps) none s := by
  have hdone {p : OnDevice Unit} (hp : Plain p) :
      Obeys forwards (fun _ _ _ => True) (fun _ _ => True) (ServiceCall.finish p) none s :=
    Plain.ends (Within.bind hp fun _ => trivial)
  cases call with
  | recordFileNow stamp => exact hdone (VaultServices.plain_recordFileNow deps stamp)
  | deliver stamp path => exact hdone (VaultServices.plain_deliver deps stamp path)
  | promote now revisionId =>
    refine hdone (Within.bind VaultServices.plain_requireVaultId fun vaultId => ?_)
    exact Within.bind (plain_promote _ _ _) fun _ =>
      VaultServices.plain_materializeCurrentVersion deps
  | resolveConflict now conflictId choice =>
    exact hdone (VaultServices.plain_resolveConflict deps now conflictId choice)
  | combineAndUse stamp other =>
    exact Plain.ends (Within.bind (VaultServices.plain_combineAndUse deps stamp other)
      fun _ => trivial)
  | applyPendingUpdate =>
    exact Plain.ends (Within.bind (VaultServices.plain_applyPendingUpdate deps) fun _ => trivial)
  | unlockTick => exact hdone (VaultServices.plain_materializeCurrentVersion deps)
  | writeBack revisionId ignoreLock =>
    exact Plain.ends (Within.bind (VaultServices.plain_writeBack deps revisionId ignoreLock)
      fun _ => trivial)
  | saveVaultAs path =>
    exact Plain.ends (Within.bind (VaultServices.plain_saveVaultAs deps path) fun _ => trivial)
  | endSession now conflictId session =>
    refine (forwards_endSession deps now conflictId session).bind fun _ _ _ _ => ?_
    trivial

theorem forwards_services {admitted : Device → ServiceCall → Bool} {command : ServiceCommand}
    {p : OnDevice Unit} (hp : services deps admitted command s = some p) :
    Obeys forwards (fun _ _ _ => True) (fun _ _ => True) p none s := by
  cases command with
  | call call =>
    rw [services] at hp
    split at hp <;> cases hp
    intro _
    refine ⟨none, .other (by simp [DeviceEvent.plain]), fun _ => ?_⟩
    refine ((forwards_run deps call).attempt (fun _ _ _ _ => trivial)
      fun _ _ _ _ => trivial).bind (fun g' u answer (_ : True) => ?_)
    exact fun _ => ⟨g', .other (by simp [DeviceEvent.plain]), fun _ => trivial⟩
  | ingestNext now inbound bytes =>
    rw [services] at hp
    split at hp <;> cases hp
    exact Plain.ends (VaultServices.plain_ingestNext deps now inbound bytes)
  | lock | grant | medium =>
    cases hp
    exact fun _ => ⟨none, .other (by simp), fun _ => trivial⟩

end Forwards

/-! ## Runs -/

/-- What is known of a fast-forward that has begun. -/
def Forward.Knows (s : Device) (forward : Forward) : Prop :=
  ∀ head ∈ forward.head, s.store.tables.Contains forward.revisionId head

theorem Forward.Knows.mono {s t : Device} {forward : Forward} (h : forward.Knows s)
    (hst : s.store.Grows t.store) : forward.Knows t :=
  fun head hhead => (h head hhead).mono hst.tables

theorem ForwardSteps.knows {g g' : Option Forward} {s t : Device} {events : List DeviceEvent}
    (h : ForwardSteps g s events t g') (hg : ∀ forward ∈ g, forward.Knows s)
    (hahead : ∀ e ∈ events, e.Ahead s) :
    (∀ forward ∈ g', forward.Knows s) ∧ ∀ e ∈ events, e.KeepsWork s := by
  cases h with
  | other hplain =>
    refine ⟨hg, fun e he => ?_⟩
    have hp := hplain e he
    unfold DeviceEvent.KeepsWork
    split
    · exact fun hreason => absurd hreason hp
    · trivial
  | advances =>
    refine ⟨fun forward hforward => ?_, fun e he => ?_⟩
    · cases hforward
      exact hahead _ List.mem_cons_self
    · rw [List.mem_singleton.mp he]
      trivial
  | moves hnext hprevious =>
    refine ⟨fun _ hnone => (nomatch hnone), fun e he => ?_⟩
    rw [List.mem_singleton.mp he]
    intro _ previous hprev
    rw [hnext]
    exact hg _ rfl previous (hprevious ▸ hprev)

def firstVersion : IngestInput where
  vaultId := ⟨"home"⟩
  revisionId := ⟨"r1"⟩
  declaredParentIds := []
  declaredHash := plainDeps.sha256 [1]
  bytes := [1]
  fromDeviceId := ⟨"phone"⟩
  message := none

/-- Two versions arrive in a vault that is new here. -/
def arrivals : List Operation :=
  [.adoptVault 1 ⟨"home"⟩ "home.kdbx", .ingestReceivedRevision 2 firstVersion,
    .ingestReceivedRevision 3 { firstVersion with
      revisionId := ⟨"r2"⟩
      declaredParentIds := [⟨"r1"⟩]
      declaredHash := plainDeps.sha256 [1, 1]
      bytes := [1, 1] }]

def joining : Device := .of (storeAfter arrivals) ⟨"home"⟩

def joiningVault : Tracked := ⟨⟨"home"⟩, none⟩

theorem sound_joining : joining.Sound laptopDeps.sha256 joiningVault :=
  ⟨wellFormed_storeAfter arrivals rfl, rfl, _, rfl, rfl⟩

/-- The session with the phone, which has the first version, and the one with the tablet, which has
both. -/
def phoneEnds : ServiceCall :=
  .endSession 4 ⟨"c1"⟩ ⟨⟨"home"⟩, ⟨"phone"⟩, [⟨⟨"r1"⟩, plainDeps.sha256 [1], 1, []⟩], some ⟨"r1"⟩⟩

def tabletEnds : ServiceCall :=
  .endSession 4 ⟨"c2"⟩ ⟨⟨"home"⟩, ⟨"tablet"⟩,
    [⟨⟨"r1"⟩, plainDeps.sha256 [1], 1, []⟩, ⟨⟨"r2"⟩, plainDeps.sha256 [1, 1], 2, [⟨"r1"⟩]⟩],
    some ⟨"r2"⟩⟩

/-- The second session ends between the verdict of the first one and its fast-forward. -/
def overtaking (first second : ServiceCall) : List (Move ServiceCommand) :=
  .start (.call first) :: .resume 0 :: .start (.call second) :: List.replicate 7 (.resume 1) ++
    List.replicate 8 (.resume 0)

end PassVault
