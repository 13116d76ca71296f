import Mathlib.Data.List.Chain
import PassVault.Sync.Growth
import PassVault.Sync.RowCalls
import PassVault.Sync.StoredHistory

/-!
# When no update of the vault row is lost

Nothing keeps two calls from reading the same row, and the later write then undoes the earlier.
When each call finds the row as it read it, the calls take effect one after the other, in the order
of their writes; a call that records nothing takes effect where it reads the row.
-/

namespace PassVault

open Async

namespace RowCall

/-- Where the call moves the head to, when, and why. -/
def headMove : RowCall → Option (RevisionId × Nat × HeadReason)
  | recordLocalChange stamp _ => some (stamp.revisionId, stamp.now, .promote)
  | promote now revisionId => some (revisionId, now, .promote)
  | fastForward now revisionId => some (revisionId, now, .fastForward)
  | bindVaultToFile _ => none

end RowCall

/-- Where a call is. -/
inductive RowStage where
  | starting (call : RowCall)
  /-- `recordLocalChange` read the row, and the bytes are those of its head, or are not. -/
  | matching (stamp : Stamp) (bytes : Bytes) (head : RevisionId)
  | differing (stamp : Stamp) (bytes : Bytes) (vault : Vault)
  | read (call : RowCall) (vault : Vault)
  /-- The revision that becomes the head is stored. -/
  | ready (call : RowCall) (vault : Vault)
  /-- The row is written, and the head event is not. -/
  | announced (call : RowCall) (event : HeadRevisionEvent)
  | effective (call : RowCall)
  | completed
  | failed

namespace RowStage

/-- The call that took effect and has not completed. -/
def call : RowStage → List RowCall
  | matching stamp bytes _ => [.recordLocalChange stamp bytes]
  | announced call _ | effective call => [call]
  | _ => []

def event : RowStage → List HeadRevisionEvent
  | announced _ event => [event]
  | _ => []

def path : RowStage → List FilePath
  | effective call => call.path.toList
  | _ => []

def done : RowStage → Nat
  | completed => 1
  | _ => 0

end RowStage

/-- The rows of vaults and their head events stay, and no revision row is lost. -/
structure Store.SameRows (s t : Store) : Prop where
  vaults : t.tables.vaults = s.tables.vaults
  events : t.tables.headEvents = s.tables.headEvents
  revisions : ∀ id row, s.tables.revisions.find id = some row → t.tables.revisions.find id = some row

theorem Store.SameRows.refl (s : Store) : s.SameRows s := ⟨rfl, rfl, fun _ _ h => h⟩

/-- What a call does, from one access to the next. -/
inductive RowSteps (sha256 : Bytes → Sha256Hex) (vaultId : VaultId) :
    RowStage → RowDevice → List RowEvent → RowDevice → RowStage → Prop where
  | other {g : RowStage} {s : RowDevice} {events : List RowEvent} {store : Store}
      (hquiet : ∀ e ∈ events, ∀ s : RowDevice, s.note e = s) (hsame : s.store.SameRows store) :
    RowSteps sha256 vaultId g s events { s with store } g
  | seesSame {s : RowDevice} {stamp : Stamp} {bytes : Bytes} {vault : Vault} {head : RevisionId}
      (hrow : s.store.tables.getVault vaultId = some vault)
      (hhead : vault.headRevisionId = some head)
      (hsame : s.store.tables.hashOf head = some (sha256 bytes)) :
    RowSteps sha256 vaultId (.starting (.recordLocalChange stamp bytes)) s [] s
      (.matching stamp bytes head)
  | seesOther {s : RowDevice} {stamp : Stamp} {bytes : Bytes} {vault : Vault}
      (hrow : s.store.tables.getVault vaultId = some vault)
      (hnot : ¬ SameAsHead s.store.tables.hashOf vault.headRevisionId (sha256 bytes)) :
    RowSteps sha256 vaultId (.starting (.recordLocalChange stamp bytes)) s [] s
      (.differing stamp bytes vault)
  /-- The query of the head finds the opposite of what was so when the row was read. -/
  | mismatches {s : RowDevice} {stamp : Stamp} {bytes : Bytes} {head : RevisionId} {vault : Vault}
      (hnot : s.store.tables.hashOf head ≠ some (sha256 bytes)) :
    RowSteps sha256 vaultId (.matching stamp bytes head) s [] s (.differing stamp bytes vault)
  | agrees {s : RowDevice} {stamp : Stamp} {bytes : Bytes} {vault : Vault} {head : RevisionId}
      (hhead : vault.headRevisionId = some head)
      (hsame : s.store.tables.hashOf head = some (sha256 bytes)) :
    RowSteps sha256 vaultId (.differing stamp bytes vault) s [] s (.matching stamp bytes head)
  | unchanged {s : RowDevice} {stamp : Stamp} {bytes : Bytes} {head : RevisionId} :
    RowSteps sha256 vaultId (.matching stamp bytes head) s
      [.engine (.unchanged vaultId head ())] s
      (.effective (.recordLocalChange stamp bytes))
  | saves {s : RowDevice} {stamp : Stamp} {bytes : Bytes} {vault : Vault} {revision : Revision}
      {tables : Tables} (hid : revision.id = stamp.revisionId)
      (hsave : Tables.saveRevision revision s.store.tables = .ok tables) :
    RowSteps sha256 vaultId (.differing stamp bytes vault) s [.engine (.saved revision)]
      { s with store := s.store.setTables tables } (.ready (.recordLocalChange stamp bytes) vault)
  | reads {s : RowDevice} {call : RowCall} {vault : Vault}
      (hrow : s.store.tables.getVault vaultId = some vault)
      (hcall : ∀ stamp bytes, call ≠ .recordLocalChange stamp bytes) :
    RowSteps sha256 vaultId (.starting call) s [] s (.read call vault)
  | finds {s : RowDevice} {call : RowCall} {vault : Vault} {revision : Revision}
      {move : Nat × HeadReason} (hmove : call.headMove = some (revision.id, move))
      (hcall : ∀ stamp bytes, call ≠ .recordLocalChange stamp bytes)
      (hstored : s.store.tables.getRevision revision.id = some revision) :
    RowSteps sha256 vaultId (.read call vault) s [] s (.ready call vault)
  | announces {s : RowDevice} {call : RowCall} {vault next : Vault} {event : HeadRevisionEvent}
      {revisionId : RevisionId} {now : Nat} {reason : HeadReason} {why : VaultWrite Unit}
      (hcall : call.headMove = some (revisionId, now, reason))
      (hmove : (next, event) = moveHead vault revisionId now reason)
      (hwhy : (∃ origin, why = .moved event origin) ∨ ∃ revision, why = .recorded revision () ∧
        revision.id = revisionId ∧ revision.parentIds = vault.headRevisionId.toList) :
    RowSteps sha256 vaultId (.ready call vault) s [.engine (.wroteVault next why)]
      { s with
        store := s.store.setTables (s.store.tables.saveVault next), announced := s.announced + 1 }
      (.announced call event)
  | appends {s : RowDevice} {call : RowCall} {event : HeadRevisionEvent} {tables : Tables}
      (happend : Tables.appendHeadEvent event s.store.tables = .ok tables) :
    RowSteps sha256 vaultId (.announced call event) s []
      { s with store := s.store.setTables tables, announced := s.announced - 1 }
      (.effective call)
  | binds {s : RowDevice} {kdbxPath : FilePath} {vault : Vault} :
    RowSteps sha256 vaultId (.read (.bindVaultToFile kdbxPath) vault) s
      [.engine (.wroteVault { vault with kdbxPath := some kdbxPath } .bound)]
      { s with
        store := s.store.setTables
          (s.store.tables.saveVault { vault with kdbxPath := some kdbxPath })
        binding := s.binding + 1 }
      (.effective (.bindVaultToFile kdbxPath))
  | completes {s : RowDevice} {call : RowCall} :
    RowSteps sha256 vaultId (.effective call) s [.completed call] (s.note (.completed call))
      .completed
  | threw {g : RowStage} {s : RowDevice} {call : RowCall} (hg : g.done = 0) :
    RowSteps sha256 vaultId g s [.threw call] s .failed
  | rollback {g : RowStage} {s : RowDevice} (hg : g.done = 0) :
    RowSteps sha256 vaultId g s [] (changeStore Store.rollback [] s).1 .failed

/-! ## The programs -/

section Follows

variable {deps : EngineDeps} {vaultId : VaultId} {α β : Type} {g g' : RowStage}
  {post : RowStage → RowDevice → α → Prop}

/-- Where an operation may end; it may throw wherever it is. -/
abbrev Makes (deps : EngineDeps) (vaultId : VaultId) (post : RowStage → RowDevice → α → Prop)
    (p : Async RowDevice RowEvent Failure α) (g : RowStage) (s : RowDevice) : Prop :=
  Follows (RowSteps deps.sha256 vaultId) post (fun g _ => g.done = 0) p g s

/-- A change of the store that appends no head event. -/
theorem changeStore_row (s : RowDevice) {f : Store → Store} {events : List RowEvent}
    (hevents : ((f s.store).tables.headEvents) = s.store.tables.headEvents)
    (hstore : (events.foldl (fun s e => s.note e) s).store = s.store) :
    changeStore f events s =
      ({ events.foldl (fun s e => s.note e) s with store := f s.store }, events) := by
  have heq : changeStore f events s =
      (RowDevice.setStore (f s.store) (events.foldl (fun s e => s.note e) s), events) := rfl
  rw [heq, RowDevice.setStore, hstore, hevents, if_neg (Nat.lt_irrefl _)]

theorem makes_report {e : RowEvent} {s : RowDevice} {post : RowStage → RowDevice → Unit → Prop}
    (hstore : (s.note e).store = s.store)
    (hstep : RowSteps deps.sha256 vaultId g s [e] (s.note e) g') (hpost : post g' (s.note e) ()) :
    Makes deps vaultId post (.act (changeStore id [e]) fun _ => .done ()) g s := by
  have hchange : changeStore id [e] s = ({ s.note e with store := s.store }, [e]) :=
    changeStore_row s rfl hstore
  have heq : changeStore id [e] s = (s.note e, [e]) := by
    rw [hchange, ← hstore]
  refine ⟨g', ?_, ?_⟩
  · rwa [heq]
  · rw [heq]
    exact hpost

/-- Nothing is done. -/
theorem rowSteps_idle {s : RowDevice} : RowSteps deps.sha256 vaultId g s [] s g :=
  .other (by simp) (.refl _)

theorem makes_putBlob {bytes : Bytes} {s : RowDevice}
    {post : RowStage → RowDevice → Sha256Hex → Prop} (hpost : ∀ t, post g t (deps.sha256 bytes)) :
    Makes deps vaultId post (putBlob deps.sha256 bytes) g s := by
  refine ⟨g, ?_, fun t _ => hpost t⟩
  rw [changeStore_row s rfl rfl]
  exact .other (by simp) ⟨rfl, rfl, fun _ _ h => h⟩

/-- A statement. -/
theorem makes_execute {f : Tables → Except Failure Tables} {events : List RowEvent} {s : RowDevice}
    {post : RowStage → RowDevice → Unit → Prop}
    (hg : g.done = 0) (hok : ∀ tables, f s.store.tables = .ok tables → RowSteps deps.sha256 vaultId g s
      (changeStore (Store.setTables tables) events s).2
      (changeStore (Store.setTables tables) events s).1 g')
    (hpost : ∀ t, post g' t ()) : Makes deps vaultId post (execute f events) g s := by
  cases hf : f s.store.tables with
  | ok tables =>
    refine ⟨g', ?_, fun t _ => ?_⟩
    · simp only [store, hf]
      exact hok tables hf
    · simp only [store, hf]
      exact hpost t
  | error e =>
    refine ⟨g, ?_, fun t _ => ?_⟩
    · simp only [store, hf]
      exact rowSteps_idle
    · simp only [store, hf]
      exact hg

/-- A transaction; what it rolls back makes its call fail. -/
theorem makes_transaction {body : Async RowDevice RowEvent Failure α} {s : RowDevice}
    (hdone : g.done = 0) (hbody : ∀ t, Makes deps vaultId (fun g'' _ _ => g'' = g') body g t) :
    Makes deps vaultId (fun g'' _ _ => g'' = g') (transaction body) g s := by
  have hbook : ∀ {f : Store → Store} (_ : Bookkeeping f) (g : RowStage) (t : RowDevice),
      RowSteps deps.sha256 vaultId g t (changeStore f [] t).2 (changeStore f [] t).1 g := by
    intro f hf g t
    rw [changeStore_row t (by cases hf <;> rfl) rfl]
    exact .other (by simp) (by cases hf <;> exact ⟨rfl, rfl, fun _ _ h => h⟩)
  refine Follows.bind (Q := fun g'' _ _ => g'' = g) (fun g'' t depth hg => ?_)
    ⟨g, rowSteps_idle, rfl⟩
  subst hg
  split
  · exact hbody t
  refine ⟨g'', rowSteps_idle, g'', hbook .enqueue _ _, fun t _ => ?_⟩
  refine Follows.bind (p := beginTransaction) (Q := fun g _ _ => g = g'') (fun g t _ hg => ?_)
    ⟨g'', hbook .begin _ _, rfl⟩
  subst hg
  refine Follows.bind (Q := fun g'' _ _ => g'' = g') (fun g'' t a hg => ?_)
    (Follows.tryCatch (F := fun g _ => g.done = 0) (fun g t e hdone => ?_) (hbody t))
  · subst hg
    exact ⟨g'', hbook .commit _ _, fun _ _ => rfl⟩
  · exact ⟨.failed, .rollback hdone, fun _ _ => rfl⟩

theorem makes_requireVault {s : RowDevice} {post : RowStage → RowDevice → Vault → Prop}
    (hg : g.done = 0) (hsome : ∀ vault, s.store.tables.getVault vaultId = some vault →
      ∃ g', RowSteps deps.sha256 vaultId g s [] s g' ∧ ∀ t, post g' t vault) :
    Makes deps vaultId post (SyncEngine.requireVault vaultId) g s := by
  cases hrow : s.store.tables.getVault vaultId with
  | none =>
    refine ⟨g, rowSteps_idle, fun t _ => ?_⟩
    simp only [store, hrow]
    exact hg
  | some vault =>
    obtain ⟨g', hstep, hpost⟩ := hsome vault hrow
    refine ⟨g', hstep, fun t _ => ?_⟩
    simp only [store, hrow]
    exact hpost t

theorem makes_requireRevision {revisionId : RevisionId} {s : RowDevice}
    {post : RowStage → RowDevice → Revision → Prop} (hg : g.done = 0)
    (hsome : ∀ revision, s.store.tables.getRevision revisionId = some revision →
      ∃ g', RowSteps deps.sha256 vaultId g s [] s g' ∧ ∀ t, post g' t revision) :
    Makes deps vaultId post (SyncEngine.requireRevision revisionId) g s := by
  cases hrow : s.store.tables.getRevision revisionId with
  | none =>
    refine ⟨g, rowSteps_idle, fun t _ => ?_⟩
    simp only [store, hrow]
    exact hg
  | some revision =>
    obtain ⟨g', hstep, hpost⟩ := hsome revision hrow
    refine ⟨g', hstep, fun t _ => ?_⟩
    simp only [store, hrow]
    exact hpost t

theorem id_of_getRevision {t : Tables} {revisionId : RevisionId} {revision : Revision}
    (h : t.getRevision revisionId = some revision) : revision.id = revisionId := by
  obtain ⟨row, hrow, rfl⟩ := Option.map_eq_some_iff.mp h
  exact (Table.key_of_find hrow :)

theorem hashOf_eq {t : Tables} {revisionId : RevisionId} :
    t.hashOf revisionId = (t.getRevision revisionId).map (·.hash) := by
  rw [Tables.hashOf, Tables.getRevision, Option.map_map]
  rfl

/-- The query of the head finds what it had when the row was read, or the call is over here. -/
theorem makes_headWithHash {vault : Vault} {hash : Sha256Hex} {s : RowDevice}
    {post : RowStage → RowDevice → Option RevisionId → Prop}
    (hsome : ∀ head, vault.headRevisionId = some head → s.store.tables.hashOf head = some hash →
      ∃ g', RowSteps deps.sha256 vaultId g s [] s g' ∧ ∀ t, post g' t (some head))
    (hnone : ¬ SameAsHead s.store.tables.hashOf vault.headRevisionId hash →
      ∃ g', RowSteps deps.sha256 vaultId g s [] s g' ∧ ∀ t, post g' t none)
    (hnohead : vault.headRevisionId = none → post g s none) :
    Makes deps vaultId post (SyncEngine.headWithHash vault.headRevisionId hash) g s := by
  cases hhead : vault.headRevisionId with
  | none => exact hnohead hhead
  | some head =>
    by_cases hsame : s.store.tables.hashOf head = some hash
    · obtain ⟨g', hstep, hpost⟩ := hsome head hhead hsame
      refine ⟨g', hstep, fun t _ => ?_⟩
      rw [hashOf_eq] at hsame
      obtain ⟨revision, hrevision, hhash⟩ := Option.map_eq_some_iff.mp hsame
      simp only [store, hrevision]
      show post g' t (if revision.hash = hash then some revision.id else none)
      rw [if_pos hhash, id_of_getRevision hrevision]
      exact hpost t
    · have hnot : ¬ SameAsHead s.store.tables.hashOf vault.headRevisionId hash := by
        rintro ⟨other, hother, hhash⟩
        rw [hhead] at hother
        cases hother
        exact hsame hhash
      obtain ⟨g', hstep, hpost⟩ := hnone hnot
      refine ⟨g', hstep, fun t _ => ?_⟩
      rw [hashOf_eq] at hsame
      cases hrevision : s.store.tables.getRevision head with
      | none =>
        simp only [store, hrevision]
        exact hpost t
      | some revision =>
        have hne : ¬ revision.hash = hash := fun heq => hsame (by rw [hrevision, ← heq]; rfl)
        simp only [store, hrevision]
        show post g' t (if revision.hash = hash then some revision.id else none)
        rw [if_neg hne]
        exact hpost t

theorem makes_saveVault {next : Vault} {why : VaultWrite Unit} {s : RowDevice}
    (hg : g.done = 0) (hstep : RowSteps deps.sha256 vaultId g s [.engine (.wroteVault next why)]
      { s.note (.engine (.wroteVault next why)) with
        store := s.store.setTables (s.store.tables.saveVault next) } g') :
    Makes deps vaultId (fun g'' _ _ => g'' = g') (SyncEngine.saveVault next why) g s := by
  refine makes_execute hg (fun tables hsave => ?_) fun _ => rfl
  cases hsave
  rw [changeStore_row s rfl (by cases why <;> rfl)]
  exact hstep

theorem makes_appendHeadEvent {call : RowCall} {headEvent : HeadRevisionEvent} {s : RowDevice} :
    Makes deps vaultId (fun g' _ _ => g' = .effective call) (SyncEngine.appendHeadEvent headEvent)
      (.announced call headEvent) s := by
  refine makes_execute rfl (fun tables happend => ?_) fun _ => rfl
  have hlt : s.store.tables.headEvents.length <
      (s.store.setTables tables).tables.headEvents.length := by
    rw [Tables.appendHeadEvent] at happend
    split at happend <;> cases happend
    simp [Store.setTables]
  have heq : changeStore (Store.setTables tables) [] s =
      ({ s with store := s.store.setTables tables, announced := s.announced - 1 }, []) := by
    have hset : (changeStore (Store.setTables tables) [] s).1 =
        RowDevice.setStore (s.store.setTables tables) s := rfl
    rw [RowDevice.setStore, if_pos hlt] at hset
    exact Prod.ext hset rfl
  rw [heq]
  exact .appends happend

theorem makes_recording (stamp : Stamp) (bytes : Bytes) {vault : Vault} (hid : vault.id = vaultId)
    (s : RowDevice) :
    Makes deps vaultId (fun g _ _ => g = .effective (.recordLocalChange stamp bytes))
      (do
        let _ ← putBlob deps.sha256 bytes
        let revision := localChangeRevision
          (stamp.seed vaultId (deps.sha256 bytes) bytes.length none)
          vault.headRevisionId (some deps.deviceId)
        transaction do
          SyncEngine.saveRevision revision
          SyncEngine.saveVault { vault with headRevisionId := some revision.id }
            (.recorded revision ())
          SyncEngine.appendHeadEvent
            { vaultId, previousRevisionId := vault.headRevisionId, nextRevisionId := revision.id
              createdAt := stamp.now, reason := .promote }
          return LocalChangeResult.recorded revision)
      (.differing stamp bytes vault) s := by
  refine Follows.bind (Q := fun g _ _ => g = .differing stamp bytes vault)
    (fun g s _ hg => ?_) (makes_putBlob fun _ => rfl)
  subst hg
  apply makes_transaction rfl
  intro s
  refine Follows.bind (Q := fun g _ _ => g = .ready (.recordLocalChange stamp bytes) vault)
    (fun g s _ hg => ?_) (makes_execute rfl (fun tables hsave => ?_) fun _ => rfl)
  rotate_left
  · have hevents : tables.headEvents = s.store.tables.headEvents := by
      obtain ⟨-, -, rfl⟩ := Tables.saveRevision_ok hsave
      rfl
    rw [changeStore_row s hevents (by rfl)]
    exact .saves (by rfl) hsave
  subst hg
  let event : HeadRevisionEvent :=
    { vaultId, previousRevisionId := vault.headRevisionId, nextRevisionId := stamp.revisionId
      createdAt := stamp.now, reason := .promote }
  refine Follows.bind (Q := fun g _ _ => g = .announced (.recordLocalChange stamp bytes) event)
    (fun g s _ hg => ?_) (makes_saveVault rfl (.announces rfl ?_ (.inr ⟨_, rfl, rfl, rfl⟩)))
  · subst hg
    refine Follows.bind (Q := fun g _ _ => g = .effective (.recordLocalChange stamp bytes))
      (fun g s _ hg => by exact hg) makes_appendHeadEvent
  · rw [moveHead, hid]
    rfl

/-- What `promote` and `fastForward` do from the row on that they read. -/
theorem makes_moving {call : RowCall} {vault : Vault} {revisionId : RevisionId} {now : Nat}
    {reason : HeadReason} {message : String} {origin : Option Unit}
    (hcall : call.headMove = some (revisionId, now, reason))
    (hother : ∀ stamp bytes, call ≠ .recordLocalChange stamp bytes) (s : RowDevice) :
    Makes deps vaultId (fun g _ _ => g = .effective call)
      (do
        let revision ← SyncEngine.requireRevision revisionId
        let (next, headEvent) ← Async.ofExcept (do
          assert (vault.id = revision.vaultId) message
          return moveHead vault revision.id now reason)
        SyncEngine.commitHeadMove next headEvent origin)
      (.read call vault) s := by
  refine Follows.bind (Q := fun g _ revision => g = .ready call vault ∧ revision.id = revisionId)
    (fun g s revision hg => ?_) (makes_requireRevision rfl fun revision hrevision => ?_)
  rotate_left
  · have hid := id_of_getRevision hrevision
    exact ⟨_, .finds (hid ▸ hcall) hother (hid ▸ hrevision), fun _ => ⟨rfl, hid⟩⟩
  obtain ⟨rfl, hid⟩ := hg
  refine Follows.bind (Q := fun g _ move => g = .ready call vault ∧
    move = moveHead vault revisionId now reason) (fun g s move hg => ?_)
    (Follows.ofExcept (fun move hmove => ⟨rfl, ?_⟩) fun _ _ => rfl)
  rotate_left
  · rw [← hid]
    exact (moved_ok hmove).2
  obtain ⟨rfl, rfl⟩ := hg
  apply makes_transaction rfl
  intro s
  refine Follows.bind (Q := fun g _ _ =>
    g = .announced call (moveHead vault revisionId now reason).2) (fun g s _ hg => ?_)
    (makes_saveVault rfl (.announces hcall rfl (.inl ⟨_, rfl⟩)))
  subst hg
  exact Follows.bind (Q := fun g _ _ => g = .effective call) (fun g s _ hg => by exact hg)
    makes_appendHeadEvent

/-- Where `promote`, `fastForward` and `bindVaultToFile` read the row. -/
theorem makes_reading {call : RowCall} {k : Vault → Async RowDevice RowEvent Failure α}
    (hcall : ∀ stamp bytes, call ≠ .recordLocalChange stamp bytes)
    (hk : ∀ vault s, Makes deps vaultId (fun g _ _ => g = .effective call) (k vault)
      (.read call vault) s) (s : RowDevice) :
    Makes deps vaultId (fun g _ _ => g = .effective call)
      (SyncEngine.requireVault vaultId >>= k) (.starting call) s := by
  refine Follows.bind (Q := fun g _ vault => g = .read call vault) (fun g s vault hg => ?_)
    (makes_requireVault rfl fun vault hrow => ⟨_, .reads hrow hcall, fun _ => rfl⟩)
  subst hg
  exact hk vault s

theorem makes_recordLocalChange (stamp : Stamp) (bytes : Bytes) (s : RowDevice) :
    Makes deps vaultId (fun g _ _ => g = .effective (.recordLocalChange stamp bytes))
      (SyncEngine.recordLocalChange deps stamp vaultId bytes ())
      (.starting (.recordLocalChange stamp bytes)) s := by
  refine Follows.bind (Q := fun g _ _ => g = .starting (.recordLocalChange stamp bytes))
    (fun g s _ hg => ?_) (makes_report (by rfl) (.other ?_ (.refl _)) rfl)
  rotate_left
  · intro e he s
    rw [List.mem_singleton.mp he]
    rfl
  subst hg
  refine Follows.bind (Q := fun g _ vault => vault.id = vaultId ∧
    ((∃ head, g = .matching stamp bytes head ∧ vault.headRevisionId = some head) ∨
      g = .differing stamp bytes vault)) (fun g s vault hg => ?_)
    (makes_requireVault rfl fun vault hrow => ?_)
  rotate_left
  · have hid : vault.id = vaultId := Table.key_of_find hrow
    by_cases hsame : SameAsHead s.store.tables.hashOf vault.headRevisionId (deps.sha256 bytes)
    · obtain ⟨head, hhead, hhash⟩ := hsame
      exact ⟨_, .seesSame hrow hhead hhash, fun _ => ⟨hid, .inl ⟨head, rfl, hhead⟩⟩⟩
    · exact ⟨_, .seesOther hrow hsame, fun _ => ⟨hid, .inr rfl⟩⟩
  obtain ⟨hid, hg⟩ := hg
  refine Follows.bind (Q := fun g _ found =>
    (∃ head, g = .matching stamp bytes head ∧ found = some head) ∨
      (g = .differing stamp bytes vault ∧ found = none)) (fun g s found hg => ?_)
    (makes_headWithHash (fun head hhead hsame => ?_) (fun hnot => ?_) fun hnone => ?_)
  · rcases hg with ⟨head, rfl, rfl⟩ | ⟨rfl, rfl⟩
    · exact Follows.bind (Q := fun g _ _ => g = .effective (.recordLocalChange stamp bytes))
        (fun g s _ hg => by exact hg) (makes_report (by rfl) .unchanged rfl)
    · exact makes_recording stamp bytes hid s
  · rcases hg with ⟨other, rfl, hother⟩ | rfl
    · rw [hhead] at hother
      cases hother
      exact ⟨_, rowSteps_idle, fun _ => .inl ⟨head, rfl, rfl⟩⟩
    · exact ⟨_, .agrees hhead hsame, fun _ => .inl ⟨head, rfl, rfl⟩⟩
  · rcases hg with ⟨head, rfl, hhead⟩ | rfl
    · exact ⟨_, .mismatches fun hsame => hnot ⟨head, hhead, hsame⟩, fun _ => .inr ⟨rfl, rfl⟩⟩
    · exact ⟨_, rowSteps_idle, fun _ => .inr ⟨rfl, rfl⟩⟩
  · rcases hg with ⟨head, -, hhead⟩ | rfl
    · rw [hnone] at hhead
      cases hhead
    · exact .inr ⟨rfl, rfl⟩

theorem makes_run (call : RowCall) (s : RowDevice) :
    Makes deps vaultId (fun g _ _ => g = .effective call) (call.run deps vaultId) (.starting call) s := by
  cases call with
  | recordLocalChange stamp bytes =>
    exact Follows.bind (fun _ _ _ hg => by exact hg) (makes_recordLocalChange stamp bytes s)
  | promote now revisionId =>
    refine Follows.bind (Q := fun g _ _ => g = .effective (.promote now revisionId))
      (fun _ _ _ hg => by exact hg) (makes_reading (by simp) (fun vault s => ?_) s)
    exact makes_moving rfl (by simp) s
  | fastForward now revisionId =>
    refine Follows.bind (Q := fun g _ _ => g = .effective (.fastForward now revisionId))
      (fun _ _ _ hg => by exact hg) ?_
    refine Follows.bind (Q := fun g _ _ => g = .starting (.fastForward now revisionId))
      (fun g s _ hg => ?_) (makes_report (by rfl) (.other ?_ (.refl _)) rfl)
    · subst hg
      exact makes_reading (by simp) (fun vault s => makes_moving rfl (by simp) s) s
    · intro e he s
      rw [List.mem_singleton.mp he]
      rfl
  | bindVaultToFile kdbxPath =>
    refine Follows.bind (Q := fun g _ _ => g = .effective (.bindVaultToFile kdbxPath))
      (fun _ _ _ hg => by exact hg) (makes_reading (by simp) (fun vault s => ?_) s)
    exact Follows.bind (Q := fun g _ _ => g = .effective (.bindVaultToFile kdbxPath))
      (fun _ _ _ hg => by exact hg) (makes_saveVault rfl .binds)

theorem makes_program (call : RowCall) (s : RowDevice) :
    Makes deps vaultId (fun _ _ _ => True) (call.program deps vaultId) (.starting call) s := by
  refine Follows.seq (Follows.attempt (fun g t _ hg => ?_) (fun g t e hg => ?_) (makes_run call s))
  · subst hg
    exact makes_report (by rfl) .completes trivial
  · exact makes_report (by rfl) (.threw hg) trivial

end Follows

/-! ## The order of the calls -/

/-- A call that writes the row finds it as it read it, but for what the call itself changes. A head
move finds the event of every earlier one appended, and a path is bound when every earlier call of
`bindVaultToFile` that wrote the row has completed. -/
def RowEvent.Current (vaultId : VaultId) (s : RowDevice) : RowEvent → Prop
  | .engine (.wroteVault next (.recorded revision _)) =>
    s.announced = 0 ∧ ∃ row ∈ s.store.tables.getVault vaultId,
      revision.parentIds = row.headRevisionId.toList ∧
        next = { row with headRevisionId := next.headRevisionId }
  | .engine (.wroteVault next (.moved event _)) =>
    s.announced = 0 ∧ ∃ row ∈ s.store.tables.getVault vaultId,
      event.previousRevisionId = row.headRevisionId ∧
        next = { row with headRevisionId := next.headRevisionId }
  | .engine (.wroteVault next .bound) =>
    s.binding = 0 ∧ ∃ row ∈ s.store.tables.getVault vaultId,
      next = { row with kdbxPath := next.kdbxPath }
  | _ => True

instance (vaultId : VaultId) (s : RowDevice) : DecidablePred (RowEvent.Current vaultId s)
  | .engine (.wroteVault _ (.recorded ..)) | .engine (.wroteVault _ (.moved ..))
  | .engine (.wroteVault _ .bound) => inferInstanceAs (Decidable (_ ∧ _))
  | .engine (.wroteVault _ .created) | .engine (.wroteVault _ (.imported _))
  | .engine (.wroteVault _ .adopted) | .engine (.saved _) | .engine (.called ..)
  | .engine (.unchanged ..) | .engine (.advancing ..) | .completed _ | .threw _ => isTrue trivial

section Serial

variable {sha256 : Bytes → Sha256Hex} {initial h : RowHistory} {order : List RowCall}
  {hashOf hashOf' : RevisionId → Option Sha256Hex}

theorem Serial.mono (hmono : ∀ id hash, hashOf id = some hash → hashOf' id = some hash)
    (hserial : Serial sha256 hashOf initial order h) : Serial sha256 hashOf' initial order h := by
  induction hserial with
  | nil => exact .nil
  | unchanged _ hsame ih =>
    obtain ⟨id, hhead, hhash⟩ := hsame
    exact .unchanged ih ⟨id, hhead, hmono _ _ hhash⟩
  | recorded _ hdiffers ih =>
    refine .recorded ih fun id hhead => ?_
    obtain ⟨other, hother, hne⟩ := hdiffers id hhead
    exact ⟨other, hmono _ _ hother, hne⟩
  | promoted _ ih => exact .promoted ih
  | fastForwarded _ ih => exact .fastForwarded ih
  | bound _ ih => exact .bound ih

/-- A call that moves the head. -/
theorem Serial.moved {call : RowCall} {revisionId : RevisionId} {now : Nat} {reason : HeadReason}
    (hcall : call.headMove = some (revisionId, now, reason))
    (hserial : Serial sha256 hashOf initial order h)
    (hdiffers : ∀ stamp bytes, call = .recordLocalChange stamp bytes →
      DiffersFromHead hashOf h.row.headRevisionId (sha256 bytes)) :
    Serial sha256 hashOf initial (order ++ [call]) (h.move revisionId now reason) := by
  cases call with
  | recordLocalChange stamp bytes =>
    cases hcall
    exact .recorded hserial (hdiffers stamp bytes rfl)
  | promote now revisionId =>
    cases hcall
    exact .promoted hserial
  | fastForward now revisionId =>
    cases hcall
    exact .fastForwarded hserial
  | bindVaultToFile kdbxPath => cases hcall

theorem RowHistory.Chained.move (hchained : h.Chained) (revisionId : RevisionId) (now : Nat)
    (reason : HeadReason) : (h.move revisionId now reason).Chained := by
  refine ⟨?_, ?_⟩
  · refine List.isChain_append.mpr ⟨hchained.chain, .singleton _, fun e he e' he' => ?_⟩
    cases (Option.mem_some.mp he')
    exact hchained.head e he
  · intro e he
    simp only [RowHistory.move, moveHead, List.getLast?_append_cons, List.getLast?_singleton] at he
    cases (Option.mem_some.mp he)
    rfl

theorem Serial.chained (hserial : Serial sha256 hashOf initial order h)
    (hinitial : initial.Chained) : h.Chained := by
  induction hserial with
  | nil => exact hinitial
  | unchanged _ _ ih => exact ih
  | recorded _ _ ih => exact ih.move _ _ _
  | promoted _ ih => exact ih.move _ _ _
  | fastForwarded _ ih => exact ih.move _ _ _
  | bound _ ih => exact ⟨ih.chain, ih.head⟩

/-- The path is the one that was bound last. -/
theorem Serial.path (hserial : Serial sha256 hashOf initial order h) :
    ∀ kdbxPath ∈ (order.filterMap RowCall.path).getLast?, h.row.kdbxPath = some kdbxPath := by
  induction hserial with
  | nil => simp
  | unchanged _ _ ih => simpa [RowCall.path, RowHistory.move, moveHead] using ih
  | recorded _ _ ih => simpa [RowCall.path, RowHistory.move, moveHead] using ih
  | promoted _ ih => simpa [RowCall.path, RowHistory.move, moveHead] using ih
  | fastForwarded _ ih => simpa [RowCall.path, RowHistory.move, moveHead] using ih
  | bound _ ih => simp [RowCall.path, RowHistory.bind]

end Serial

/-! ## What holds in between -/

/-- What holds of a call where it is. -/
def RowStage.Holds (sha256 : Bytes → Sha256Hex) (vaultId : VaultId) (t : Tables) : RowStage → Prop
  | matching _ bytes head => t.hashOf head = some (sha256 bytes)
  | differing _ bytes vault =>
    vault.id = vaultId ∧ DiffersFromHead t.hashOf vault.headRevisionId (sha256 bytes)
  | read _ vault => vault.id = vaultId
  | ready call vault =>
    vault.id = vaultId ∧
      (∀ id move, call.headMove = some (id, move) → ∃ hash, t.hashOf id = some hash) ∧
      ∀ stamp bytes, call = .recordLocalChange stamp bytes →
        DiffersFromHead t.hashOf vault.headRevisionId (sha256 bytes)
  | announced call event => event.vaultId = vaultId ∧ call.path = none
  | _ => True

theorem RowStage.Holds.mono {sha256 : Bytes → Sha256Hex} {vaultId : VaultId} {t t' : Tables}
    {g : RowStage} (h : g.Holds sha256 vaultId t)
    (hmono : ∀ id hash, t.hashOf id = some hash → t'.hashOf id = some hash) :
    g.Holds sha256 vaultId t' := by
  have hdiffers : ∀ head hash, DiffersFromHead t.hashOf head hash →
      DiffersFromHead t'.hashOf head hash := by
    intro head hash hd id hhead
    obtain ⟨other, hother, hne⟩ := hd id hhead
    exact ⟨other, hmono _ _ hother, hne⟩
  cases g with
  | matching stamp bytes head => exact hmono _ _ h
  | differing stamp bytes vault => exact ⟨h.1, hdiffers _ _ h.2⟩
  | ready call vault =>
    refine ⟨h.1, fun id move hcall => ?_, fun stamp bytes hcall => hdiffers _ _ (h.2.2 _ _ hcall)⟩
    obtain ⟨hash, hhash⟩ := h.2.1 id move hcall
    exact ⟨hash, hmono _ _ hhash⟩
  | read call vault => exact h
  | announced call event => exact h
  | _ => trivial

/-- The calls took effect in this order, and some are still under way. -/
structure Ordered (sha256 : Bytes → Sha256Hex) (vaultId : VaultId) (initial : RowHistory)
    (order : List RowCall) (row : Vault) (pending : List HeadRevisionEvent)
    (paths : List FilePath) (stages : List RowStage) (s : RowDevice) : Prop where
  stored : s.store.tables.getVault vaultId = some row
  serial : Serial sha256 s.store.tables.hashOf initial order
    ⟨row, s.store.tables.headEvents.filter (·.vaultId = vaultId) ++ pending⟩
  events : pending.Perm (stages.flatMap RowStage.event)
  announced : pending.length = s.announced ∧ s.announced ≤ 1
  calls : order.Perm (s.completed ++ stages.flatMap RowStage.call)
  bound : order.filterMap RowCall.path = s.completed.filterMap RowCall.path ++ paths
  writers : paths.Perm (stages.flatMap RowStage.path)
  binding : paths.length = s.binding ∧ s.binding ≤ 1
  head : ∀ head, row.headRevisionId = some head → ∃ hash, s.store.tables.hashOf head = some hash
  holds : ∀ g ∈ stages, g.Holds sha256 vaultId s.store.tables

def InOrder (sha256 : Bytes → Sha256Hex) (vaultId : VaultId) (initial : RowHistory)
    (stages : List RowStage) (s : RowDevice) : Prop :=
  ∃ order row pending paths, Ordered sha256 vaultId initial order row pending paths stages s

section Ordered

variable {sha256 : Bytes → Sha256Hex} {vaultId : VaultId} {initial : RowHistory}
  {order : List RowCall} {row : Vault} {pending : List HeadRevisionEvent} {paths : List FilePath}
  {stages : List RowStage} {s : RowDevice} {g g' : RowStage} {call : RowCall} {stamp : Stamp}
  {bytes : Bytes} {vault : Vault} {kdbxPath : FilePath} {event : HeadRevisionEvent}

theorem InOrder.perm {stages' : List RowStage} (hperm : stages.Perm stages')
    (h : InOrder sha256 vaultId initial stages s) : InOrder sha256 vaultId initial stages' s := by
  obtain ⟨order, row, pending, paths, h⟩ := h
  refine ⟨order, row, pending, paths, h.stored, h.serial, h.events.trans (hperm.flatMap_right _),
    h.announced, h.calls.trans ((hperm.flatMap_right _).append_left _), h.bound,
    h.writers.trans (hperm.flatMap_right _), h.binding, h.head,
    fun g hg => h.holds g (hperm.mem_iff.mpr hg)⟩

namespace Ordered

/-- A step of one call that takes no effect. -/
theorem quiet (h : Ordered sha256 vaultId initial order row pending paths (g :: stages) s)
    {store : Store} (hsame : s.store.SameRows store)
    (hevent : g'.event = g.event) (hcall : g'.call = g.call) (hpath : g'.path = g.path)
    (hg : g'.Holds sha256 vaultId store.tables) :
    Ordered sha256 vaultId initial order row pending paths (g' :: stages) { s with store } := by
  have hmono : ∀ id hash, s.store.tables.hashOf id = some hash →
      store.tables.hashOf id = some hash := by
    intro id hash hid
    obtain ⟨row, hrow, rfl⟩ := Option.map_eq_some_iff.mp hid
    exact Option.map_eq_some_iff.mpr ⟨row, hsame.revisions id row hrow, rfl⟩
  refine ⟨?_, ?_, ?_, h.announced, ?_, h.bound, ?_, h.binding, fun head hhead => ?_, ?_⟩
  · rw [Tables.getVault, hsame.vaults]
    exact h.stored
  · rw [hsame.events]
    exact h.serial.mono hmono
  · rw [List.flatMap_cons, hevent]
    exact h.events
  · rw [List.flatMap_cons, hcall]
    exact h.calls
  · rw [List.flatMap_cons, hpath]
    exact h.writers
  · obtain ⟨hash, hhash⟩ := h.head head hhead
    exact ⟨hash, hmono _ _ hhash⟩
  · refine List.forall_mem_cons.mpr ⟨hg, fun g hmem => ?_⟩
    exact (h.holds g (List.mem_cons_of_mem _ hmem)).mono hmono

theorem first (h : Ordered sha256 vaultId initial order row pending paths (g :: stages) s) :
    g.Holds sha256 vaultId s.store.tables := h.holds g List.mem_cons_self

theorem others (h : Ordered sha256 vaultId initial order row pending paths (g :: stages) s) :
    ∀ g ∈ stages, g.Holds sha256 vaultId s.store.tables :=
  fun g hg => h.holds g (List.mem_cons_of_mem _ hg)

theorem getVault_saveVault {t : Tables} {next : Vault} (hrow : t.getVault vaultId = some row)
    (hid : next.id = row.id) (hcreated : next.createdAt = row.createdAt) :
    (t.saveVault next).getVault vaultId = some next := by
  have hkey : row.id = vaultId := Table.key_of_find hrow
  have hold : t.vaults.find vaultId = some row := hrow
  rw [Tables.getVault, Tables.saveVault, Table.find_upsert, if_pos (hid.trans hkey), hold]
  cases next
  simp_all

/-- `recordLocalChange` finds the bytes of the head: it takes effect where it reads the row. -/
theorem matching (h : Ordered sha256 vaultId initial order row pending paths
      (.starting (.recordLocalChange stamp bytes) :: stages) s) {head : RevisionId}
    (hhead : row.headRevisionId = some head)
    (hsame : s.store.tables.hashOf head = some (sha256 bytes)) :
    Ordered sha256 vaultId initial (order ++ [.recordLocalChange stamp bytes]) row pending paths
      (.matching stamp bytes head :: stages) s := by
  refine ⟨h.stored, .unchanged h.serial ⟨head, hhead, hsame⟩, h.events, h.announced, ?_, ?_,
    h.writers, h.binding, h.head, List.forall_mem_cons.mpr ⟨hsame, h.others⟩⟩
  · refine (h.calls.append_right _).trans ?_
    rw [List.append_assoc]
    exact (List.perm_append_singleton _ _).append_left _
  · rw [List.filterMap_append, h.bound]
    simp [RowCall.path]

/-- A head move takes effect where it writes the row. -/
theorem announce (h : Ordered sha256 vaultId initial order row pending paths
      (.ready call vault :: stages) s) {revisionId : RevisionId} {now : Nat} {reason : HeadReason}
    {next : Vault} {event : HeadRevisionEvent}
    (hcall : call.headMove = some (revisionId, now, reason))
    (hmove : (next, event) = moveHead vault revisionId now reason) (hvault : vault = row)
    (hannounced : s.announced = 0) :
    Ordered sha256 vaultId initial (order ++ [call]) next [event] paths
      (.announced call event :: stages)
      { s with
        store := s.store.setTables (s.store.tables.saveVault next)
        announced := s.announced + 1 } := by
  subst hvault
  cases hmove
  obtain ⟨hid, hstored, hdiffers⟩ := h.first
  have hpending : pending = [] := List.length_eq_zero_iff.mp (h.announced.1.trans hannounced)
  have hpath : call.path = none := by
    cases call <;> first | rfl | cases hcall
  have hrest : stages.flatMap RowStage.event = [] := by
    have hevents := h.events
    rw [hpending] at hevents
    exact List.perm_nil.mp hevents.symm
  refine ⟨?_, ?_, ?_, ?_, ?_, ?_, h.writers, h.binding, ?_, ?_⟩
  · exact getVault_saveVault h.stored rfl rfl
  · have hserial := h.serial.moved hcall hdiffers
    rw [hpending, List.append_nil] at hserial
    exact hserial
  · rw [List.flatMap_cons, hrest]
    exact .refl _
  · simp [hannounced]
  · refine (h.calls.append_right _).trans ?_
    rw [List.append_assoc]
    exact (List.perm_append_singleton _ _).append_left _
  · rw [List.filterMap_append, h.bound]
    simp [hpath]
  · rintro head ⟨⟩
    exact hstored revisionId _ hcall
  · exact List.forall_mem_cons.mpr ⟨⟨hid, hpath⟩, h.others⟩

theorem append (h : Ordered sha256 vaultId initial order row pending paths
      (.announced call event :: stages) s) {tables : Tables}
    (happend : Tables.appendHeadEvent event s.store.tables = .ok tables) :
    Ordered sha256 vaultId initial order row [] paths (.effective call :: stages)
      { s with store := s.store.setTables tables, announced := s.announced - 1 } := by
  obtain ⟨hvault, hpath⟩ := h.first
  have hlength := h.events.length_eq
  obtain ⟨hannounced, hone⟩ := h.announced
  rw [List.flatMap_cons, List.length_append, RowStage.event, List.length_singleton] at hlength
  have hrest : stages.flatMap RowStage.event = [] := List.length_eq_zero_iff.mp (by omega)
  have hpending : pending = [event] := by
    have hevents := h.events
    rw [List.flatMap_cons, hrest, List.append_nil] at hevents
    exact List.perm_singleton.mp hevents
  have htables : tables = { s.store.tables with headEvents := s.store.tables.headEvents ++ [event] } := by
    rw [Tables.appendHeadEvent] at happend
    split at happend <;> cases happend
    rfl
  subst htables
  refine ⟨h.stored, ?_, ?_, ?_, h.calls, h.bound, ?_, h.binding, h.head, ?_⟩
  · have hserial := h.serial
    rw [hpending] at hserial
    have hfilter : (s.store.tables.headEvents ++ [event]).filter (·.vaultId = vaultId) =
        s.store.tables.headEvents.filter (·.vaultId = vaultId) ++ [event] := by
      simp [hvault]
    rw [List.append_nil]
    rw [← hfilter] at hserial
    exact hserial
  · rw [List.flatMap_cons, hrest]
    exact .refl _
  · simp only [List.length_nil]
    omega
  · rw [List.flatMap_cons, RowStage.path, hpath]
    exact h.writers
  · exact List.forall_mem_cons.mpr ⟨trivial, h.others⟩

theorem bind (h : Ordered sha256 vaultId initial order row pending paths
      (.read (.bindVaultToFile kdbxPath) vault :: stages) s)
    (hvault : ({ vault with kdbxPath := some kdbxPath } : Vault) =
      { row with kdbxPath := some kdbxPath }) (hbinding : s.binding = 0) :
    Ordered sha256 vaultId initial (order ++ [.bindVaultToFile kdbxPath])
      { row with kdbxPath := some kdbxPath } pending [kdbxPath]
      (.effective (.bindVaultToFile kdbxPath) :: stages)
      { s with
        store := s.store.setTables
          (s.store.tables.saveVault { vault with kdbxPath := some kdbxPath })
        binding := s.binding + 1 } := by
  rw [hvault]
  have hpaths : paths = [] := List.length_eq_zero_iff.mp (h.binding.1.trans hbinding)
  have hrest : stages.flatMap RowStage.path = [] := by
    have hwriters := h.writers
    rw [hpaths] at hwriters
    exact List.perm_nil.mp hwriters.symm
  refine ⟨?_, .bound h.serial, h.events, h.announced, ?_, ?_, ?_, ?_, h.head, ?_⟩
  · exact getVault_saveVault h.stored rfl rfl
  · refine (h.calls.append_right _).trans ?_
    rw [List.append_assoc]
    exact (List.perm_append_singleton _ _).append_left _
  · rw [List.filterMap_append, h.bound, hpaths, List.append_nil]
    rfl
  · rw [List.flatMap_cons, hrest]
    exact .refl _
  · simp [hbinding]
  · exact List.forall_mem_cons.mpr ⟨trivial, h.others⟩

theorem complete (h : Ordered sha256 vaultId initial order row pending paths
      (.effective call :: stages) s) :
    ∃ paths, Ordered sha256 vaultId initial order row pending paths (.completed :: stages)
      (s.note (.completed call)) := by
  have hcalls : order.Perm (s.completed ++ [call] ++ stages.flatMap RowStage.call) := by
    rw [List.append_assoc]
    exact h.calls
  have hholds : ∀ g ∈ RowStage.completed :: stages, g.Holds sha256 vaultId s.store.tables :=
    List.forall_mem_cons.mpr ⟨trivial, h.others⟩
  have hwriters := h.writers
  rw [List.flatMap_cons, RowStage.path] at hwriters
  cases hpath : call.path with
  | none =>
    rw [hpath] at hwriters
    refine ⟨paths, h.stored, h.serial, h.events, h.announced, hcalls, ?_, hwriters, ?_, h.head,
      hholds⟩
    · rw [RowDevice.note, List.filterMap_append, h.bound]
      simp [hpath]
    · simpa [RowDevice.note, hpath] using h.binding
  | some kdbxPath =>
    rw [hpath] at hwriters
    have hlength := hwriters.length_eq
    obtain ⟨hbinding, hone⟩ := h.binding
    rw [List.length_append, Option.toList_some, List.length_singleton] at hlength
    have hrest : stages.flatMap RowStage.path = [] := List.length_eq_zero_iff.mp (by omega)
    rw [hrest] at hwriters
    have hpaths : paths = [kdbxPath] := List.perm_singleton.mp hwriters
    refine ⟨[], h.stored, h.serial, h.events, h.announced, hcalls, ?_, ?_, ?_, h.head, hholds⟩
    · rw [RowDevice.note, List.filterMap_append, h.bound, hpaths]
      simp [hpath]
    · rw [List.flatMap_cons, hrest]
      exact .refl _
    · simp only [RowDevice.note, hpath, List.length_nil, Option.isSome_some, if_true]
      omega

end Ordered


theorem toList_inj {α : Type} {x y : Option α} (h : x.toList = y.toList) : x = y := by
  cases x <;> cases y <;> simp_all

/-- Two rows that differ at most in a head are the same when the heads are. -/
theorem eq_of_head {vault row : Vault} {head head' : Option RevisionId}
    (hhead : vault.headRevisionId = row.headRevisionId)
    (h : ({ vault with headRevisionId := head } : Vault) = { row with headRevisionId := head' }) :
    vault = row := by
  cases vault
  cases row
  simp_all

/-- What the events of a step need to find. -/
abbrev AllCurrent (vaultId : VaultId) (s : RowDevice) (events : List RowEvent) : Prop :=
  ∀ e ∈ events, e.Current vaultId s

theorem InOrder.step (h : InOrder sha256 vaultId initial (g :: stages) s)
    {events : List RowEvent} {s' : RowDevice} (hstep : RowSteps sha256 vaultId g s events s' g')
    (hcurrent : AllCurrent vaultId s events) (hfailed : g' ≠ .failed) :
    InOrder sha256 vaultId initial (g' :: stages) s' := by
  obtain ⟨order, row, pending, paths, h⟩ := h
  have hrow : ∀ {vault : Vault}, s.store.tables.getVault vaultId = some vault →
      vault = row ∧ vault.id = vaultId := by
    intro vault hvault
    exact ⟨Option.some.inj (hvault.symm.trans h.stored), Table.key_of_find hvault⟩
  cases hstep with
  | other _ hsame =>
    refine ⟨order, row, pending, paths, h.quiet hsame rfl rfl rfl (h.first.mono ?_)⟩
    intro id hash hid
    obtain ⟨row, hrow, rfl⟩ := Option.map_eq_some_iff.mp hid
    exact Option.map_eq_some_iff.mpr ⟨row, hsame.revisions id row hrow, rfl⟩
  | seesSame hvault hhead hsame =>
    obtain ⟨rfl, -⟩ := hrow hvault
    exact ⟨_, _, pending, paths, h.matching hhead hsame⟩
  | seesOther hvault hnot =>
    obtain ⟨rfl, hid⟩ := hrow hvault
    refine ⟨order, _, pending, paths, h.quiet (.refl _) rfl rfl rfl ⟨hid, fun head hhead => ?_⟩⟩
    obtain ⟨hash, hhash⟩ := h.head head hhead
    exact ⟨hash, hhash, fun heq => hnot ⟨head, hhead, heq ▸ hhash⟩⟩
  | mismatches hnot => exact (hnot h.first).elim
  | agrees hhead hsame =>
    obtain ⟨other, hother, hne⟩ := h.first.2 _ hhead
    exact (hne (Option.some.inj (hother.symm.trans hsame))).elim
  | unchanged => exact ⟨order, row, pending, paths, h.quiet (.refl _) rfl rfl rfl trivial⟩
  | @saves _ stamp bytes vault revision tables hid hsave =>
    have hhas : ∃ row, tables.revisions.find revision.id = some row := by
      obtain ⟨-, -, rfl⟩ := Tables.saveRevision_ok hsave
      exact Table.has_iff.mp (Table.has_insert _ revision.row)
    have hsame : s.store.SameRows (s.store.setTables tables) := by
      obtain ⟨-, -, rfl⟩ := Tables.saveRevision_ok hsave
      exact ⟨rfl, rfl, (Tables.grows_saveRevision hsave).revisions⟩
    refine ⟨order, row, pending, paths, h.quiet hsame rfl rfl rfl ⟨h.first.1, ?_, ?_⟩⟩
    · rintro id move ⟨⟩
      obtain ⟨row, hfind⟩ := hhas
      exact ⟨row.hash, Option.map_eq_some_iff.mpr ⟨row, hid ▸ hfind, rfl⟩⟩
    · rintro stamp bytes ⟨⟩ head hhead
      obtain ⟨other, hother, hne⟩ := h.first.2 head hhead
      obtain ⟨row, hfind, rfl⟩ := Option.map_eq_some_iff.mp hother
      exact ⟨_, Option.map_eq_some_iff.mpr ⟨row, hsame.revisions _ _ hfind, rfl⟩, hne⟩
  | reads hvault hcall =>
    exact ⟨order, row, pending, paths, h.quiet (.refl _) rfl rfl rfl (hrow hvault).2⟩
  | @finds _ call vault revision move hmove hcall hstored =>
    refine ⟨order, row, pending, paths, h.quiet (.refl _) rfl rfl rfl ⟨h.first, ?_, ?_⟩⟩
    · intro id move' hcall
      rw [hmove] at hcall
      cases hcall
      exact ⟨revision.hash, by rw [hashOf_eq, hstored]; rfl⟩
    · exact fun stamp bytes heq => (hcall stamp bytes heq).elim
  | @announces _ call vault next event revisionId now reason why hcall hmove hwhy =>
    have hcur := hcurrent _ List.mem_cons_self
    have hnow : s.announced = 0 ∧ vault = row := by
      cases hmove
      rcases hwhy with ⟨origin, rfl⟩ | ⟨revision, rfl, -, hparents⟩
      · obtain ⟨hannounced, row', hrow', hprevious, hnext⟩ := hcur
        cases h.stored.symm.trans hrow'
        exact ⟨hannounced, eq_of_head hprevious hnext⟩
      · obtain ⟨hannounced, row', hrow', hprevious, hnext⟩ := hcur
        cases h.stored.symm.trans hrow'
        rw [hparents] at hprevious
        exact ⟨hannounced, eq_of_head (toList_inj hprevious) hnext⟩
    have hannounce := h.announce hcall hmove hnow.2 hnow.1
    exact ⟨_, _, _, _, hannounce⟩
  | appends happend => exact ⟨_, _, _, _, h.append happend⟩
  | binds =>
    obtain ⟨hbinding, row', hrow', hnext⟩ := hcurrent _ List.mem_cons_self
    cases h.stored.symm.trans hrow'
    exact ⟨_, _, _, _, h.bind hnext hbinding⟩
  | completes =>
    obtain ⟨paths, h⟩ := h.complete
    exact ⟨_, _, _, paths, h⟩
  | threw => exact (hfailed rfl).elim
  | rollback => exact (hfailed rfl).elim

theorem RowStage.done_le (stages : List RowStage) : (stages.map RowStage.done).sum ≤ stages.length := by
  induction stages with
  | nil => simp
  | cons g rest ih =>
    have hg : g.done ≤ 1 := by cases g <;> simp [RowStage.done]
    simp only [List.map_cons, List.sum_cons, List.length_cons]
    omega

/-- When as many calls have completed as there are, each of them has. -/
theorem RowStage.all_completed (h : (stages.map RowStage.done).sum = stages.length) :
    ∀ g ∈ stages, g = .completed := by
  induction stages with
  | nil => simp
  | cons g rest ih =>
    have hrest := done_le rest
    simp only [List.map_cons, List.sum_cons, List.length_cons] at h
    have hg : g.done = 1 := by
      have : g.done ≤ 1 := by cases g <;> simp [RowStage.done]
      omega
    refine List.forall_mem_cons.mpr ⟨?_, ih (by omega)⟩
    cases g <;> first | rfl | cases hg

/-- What a pool of calls keeps. -/
def RowsKept (sha256 : Bytes → Sha256Hex) (vaultId : VaultId) (initial : RowHistory)
    (stages : List RowStage) (s : RowDevice) (log : List (RowDevice × RowEvent)) : Prop :=
  s.completed.length = (stages.map RowStage.done).sum ∧
    ((∀ x ∈ log, x.2.Current vaultId x.1) → .failed ∉ stages →
      InOrder sha256 vaultId initial stages s)

theorem RowsKept.step {log : List (RowDevice × RowEvent)} {events : List RowEvent} {s' : RowDevice}
    (h : RowsKept sha256 vaultId initial (g :: stages) s log)
    (hstep : RowSteps sha256 vaultId g s events s' g') :
    RowsKept sha256 vaultId initial (g' :: stages) s' (log ++ events.map (s, ·)) := by
  obtain ⟨hcount, horder⟩ := h
  refine ⟨?_, fun hcurrent hfailed => ?_⟩
  · have hlength : s'.completed.length + g.done = s.completed.length + g'.done := by
      cases hstep with
      | completes => simp [RowDevice.note, RowStage.done]
      | threw hg =>
        rw [hg]
        rfl
      | rollback hg =>
        rw [hg]
        rfl
      | _ => rfl
    simp only [List.map_cons, List.sum_cons] at hcount ⊢
    omega
  · have hsame : g ≠ .failed := by
      rintro rfl
      cases hstep <;> exact hfailed List.mem_cons_self
    refine InOrder.step (horder (fun x hx => hcurrent x (List.mem_append_left _ hx)) ?_) hstep
      (fun e he => ?_) fun heq => hfailed (heq ▸ List.mem_cons_self)
    · intro hmem
      rcases List.mem_cons.mp hmem with heq | hmem
      · exact hsame heq.symm
      · exact hfailed (List.mem_cons_of_mem _ hmem)
    · exact hcurrent (s, e) (List.mem_append_right _ (List.mem_map.mpr ⟨e, he, rfl⟩))

theorem RowsKept.perm {stages' : List RowStage} {log : List (RowDevice × RowEvent)}
    (hperm : stages.Perm stages') (h : RowsKept sha256 vaultId initial stages s log) :
    RowsKept sha256 vaultId initial stages' s log := by
  refine ⟨h.1.trans (hperm.map _).sum_nat, fun hcurrent hfailed => ?_⟩
  exact (h.2 hcurrent fun hmem => hfailed (hperm.mem_iff.mp hmem)).perm hperm

theorem RowsKept.start {log : List (RowDevice × RowEvent)}
    (h : RowsKept sha256 vaultId initial stages s log) (call : RowCall) :
    RowsKept sha256 vaultId initial (.starting call :: stages) s log := by
  refine ⟨by simpa [RowStage.done] using h.1, fun hcurrent hfailed => ?_⟩
  obtain ⟨order, row, pending, paths, h⟩ := h.2 hcurrent fun hmem =>
    hfailed (List.mem_cons_of_mem _ hmem)
  exact ⟨order, row, pending, paths, h.stored, h.serial, h.events, h.announced, h.calls, h.bound,
    h.writers, h.binding, h.head, List.forall_mem_cons.mpr ⟨trivial, h.holds⟩⟩

/-- When every call has completed nothing is pending. -/
theorem Ordered.noLostUpdate
    (h : Ordered sha256 vaultId initial order row pending paths stages s)
    (hall : ∀ g ∈ stages, g = .completed) (hchained : initial.Chained) :
    NoLostUpdate sha256 vaultId initial s
      ⟨row, s.store.tables.headEvents.filter (·.vaultId = vaultId)⟩ := by
  have hnone : ∀ {β : Type} (f : RowStage → List β), f .completed = [] → stages.flatMap f = [] := by
    intro β f hf
    exact List.flatMap_eq_nil_iff.mpr fun g hg => hall g hg ▸ hf
  have hpending : pending = [] := List.perm_nil.mp (hnone RowStage.event rfl ▸ h.events)
  have hpaths : paths = [] := List.perm_nil.mp (hnone RowStage.path rfl ▸ h.writers)
  have hserial := h.serial
  rw [hpending, List.append_nil] at hserial
  have hcalls := h.calls
  rw [hnone RowStage.call rfl, List.append_nil] at hcalls
  refine ⟨⟨h.stored, rfl⟩, hserial.chained hchained, fun kdbxPath hlast => ?_, order, hcalls,
    hserial⟩
  refine hserial.path kdbxPath ?_
  rwa [h.bound, hpaths, List.append_nil]

end Ordered

/-- Whatever calls are made on one vault and however they interleave, no update of its row is lost
once all of them have completed, when each found the row as it had read it. -/
theorem no_lost_update (deps : EngineDeps) (vaultId : VaultId) (store : Store)
    (initial : RowHistory) (hstored : store.tables.HasHistory vaultId initial)
    (hchained : initial.Chained)
    (hhead : ∀ head ∈ initial.row.headRevisionId, store.tables.hasRevision head = true)
    (moves : List (Move RowCall)) (w : Pool RowDevice RowEvent Failure)
    (log : List (RowDevice × RowEvent))
    (h : (⟨.of store, []⟩ : Pool RowDevice RowEvent Failure).record (rowCalls deps vaultId) moves =
      some (w, log))
    (hcurrent : ∀ x ∈ log, x.2.Current vaultId x.1)
    (hcompleted : w.state.completed.length = w.tasks.length) :
    ∃ history, NoLostUpdate deps.sha256 vaultId initial w.state history := by
  have hinitial : InOrder deps.sha256 vaultId initial [] (.of store) := by
    refine ⟨[], initial.row, [], [], hstored.1, ?_, .refl _, ⟨rfl, Nat.zero_le _⟩, .refl _, rfl,
      .refl _, ⟨rfl, Nat.zero_le _⟩, fun head hh => ?_, by simp⟩
    · rw [List.append_nil]
      exact hstored.2 ▸ .nil
    · obtain ⟨row, hrow⟩ := Table.has_iff.mp (hhead head hh)
      exact ⟨row.hash, Option.map_eq_some_iff.mpr ⟨row, hrow, rfl⟩⟩
  have hstart : (⟨.of store, []⟩ : Pool RowDevice RowEvent Failure).Follows
      (RowSteps deps.sha256 vaultId) (RowsKept deps.sha256 vaultId initial) [] [] :=
    ⟨⟨rfl, fun _ _ => hinitial⟩, rfl, by simp⟩
  have hcall : ∀ stages call s log p, RowsKept deps.sha256 vaultId initial stages s log →
      rowCalls deps vaultId call s = some p →
        ∃ g, RowsKept deps.sha256 vaultId initial (g :: stages) s log ∧
          Follows (RowSteps deps.sha256 vaultId) (fun _ _ _ => True) (fun _ _ => True) p g s := by
    intro stages call s log p hs hp
    cases hp
    exact ⟨_, hs.start call, (makes_program call s).mono (fun _ _ _ h => h) fun _ _ _ => trivial⟩
  obtain ⟨stages, hlength, hcount, horder⟩ := hstart.record_perm
    (fun _ _ _ _ hperm hs => hs.perm hperm) (fun _ _ _ _ _ _ _ hs hstep => hs.step hstep) hcall h
  have hall := RowStage.all_completed (hcount.symm.trans (hcompleted.trans hlength.symm))
  obtain ⟨order, row, pending, paths, hordered⟩ := horder hcurrent fun hmem => by
    cases hall _ hmem
  exact ⟨_, hordered.noLostUpdate hall hchained⟩

/-- A path is bound while the transaction of an edit is still open, and later an old version is put
back in use. -/
theorem no_lost_update_bound : ∃ moves w log,
    (⟨.of (storeAfter twoVaults), []⟩ : Pool RowDevice RowEvent Failure).record
      (rowCalls plainDeps ⟨"home"⟩) moves = some (w, log) ∧ w.state.completed.length = 3 ∧
      ∃ history, NoLostUpdate plainDeps.sha256 ⟨"home"⟩
        ⟨⟨⟨"home"⟩, "home.kdbx", some ⟨"h2"⟩, none, 1⟩,
          [⟨⟨"home"⟩, none, ⟨"h1"⟩, 1, .promote⟩, ⟨⟨"home"⟩, some ⟨"h1"⟩, ⟨"h2"⟩, 3, .promote⟩]⟩
        w.state history := by
  let moves : List (Move RowCall) :=
    .start (.recordLocalChange ⟨⟨"h3"⟩, 4⟩ [7]) :: List.replicate 6 (.resume 0) ++
      [.start (.bindVaultToFile ⟨"home.kdbx"⟩), .resume 1, .resume 0, .resume 1, .resume 0] ++
      .start (.promote 5 ⟨"h1"⟩) :: List.replicate 6 (.resume 2)
  have hrun : ((⟨.of (storeAfter twoVaults), []⟩ : Pool RowDevice RowEvent Failure).record
      (rowCalls plainDeps ⟨"home"⟩) moves).map (fun (w, log) =>
        (w.state.completed.length, w.tasks.length,
          decide (∀ x ∈ log, x.2.Current ⟨"home"⟩ x.1))) = some (3, 3, true) := by
    decide +kernel
  obtain ⟨⟨w, log⟩, hrecord, hends⟩ := Option.map_eq_some_iff.mp hrun
  simp only [Prod.mk.injEq, decide_eq_true_eq] at hends
  obtain ⟨hcompleted, htasks, hcurrent⟩ := hends
  refine ⟨moves, w, log, hrecord, hcompleted, ?_⟩
  refine no_lost_update plainDeps ⟨"home"⟩ (storeAfter twoVaults) _ ⟨rfl, rfl⟩ ⟨?_, ?_⟩ ?_ moves w
    log hrecord hcurrent (hcompleted.trans htasks.symm)
  · simp
  · simp
  · rintro head ⟨⟩
    rfl

/-- Two edits are recorded at the same time: both start at the head they read. -/
theorem update_lost : ∃ moves w log,
    (⟨.of (storeAfter twoVaults), []⟩ : Pool RowDevice RowEvent Failure).record
      (rowCalls plainDeps ⟨"home"⟩) moves = some (w, log) ∧
      w.state.completed.length = w.tasks.length ∧
      ∀ history, ¬ NoLostUpdate plainDeps.sha256 ⟨"home"⟩
        ⟨⟨⟨"home"⟩, "home.kdbx", some ⟨"h2"⟩, none, 1⟩,
          [⟨⟨"home"⟩, none, ⟨"h1"⟩, 1, .promote⟩, ⟨⟨"home"⟩, some ⟨"h1"⟩, ⟨"h2"⟩, 3, .promote⟩]⟩
        w.state history := by
  let moves : List (Move RowCall) :=
    .start (.recordLocalChange ⟨⟨"h3"⟩, 4⟩ [7]) :: .start (.recordLocalChange ⟨⟨"h4"⟩, 5⟩ [8]) ::
      List.replicate 8 (.resume 0) ++ List.replicate 8 (.resume 1)
  have hrun : ((⟨.of (storeAfter twoVaults), []⟩ : Pool RowDevice RowEvent Failure).record
      (rowCalls plainDeps ⟨"home"⟩) moves).map (fun (w, _) =>
        (w.state.completed.length, w.tasks.length,
          w.state.store.tables.headEvents.filter (·.vaultId = ⟨"home"⟩))) =
      some (2, 2, [⟨⟨"home"⟩, none, ⟨"h1"⟩, 1, .promote⟩,
        ⟨⟨"home"⟩, some ⟨"h1"⟩, ⟨"h2"⟩, 3, .promote⟩, ⟨⟨"home"⟩, some ⟨"h2"⟩, ⟨"h3"⟩, 4, .promote⟩,
        ⟨⟨"home"⟩, some ⟨"h2"⟩, ⟨"h4"⟩, 5, .promote⟩]) := by
    decide +kernel
  obtain ⟨⟨w, log⟩, hrecord, hends⟩ := Option.map_eq_some_iff.mp hrun
  simp only [Prod.mk.injEq] at hends
  obtain ⟨hcompleted, htasks, hevents⟩ := hends
  refine ⟨moves, w, log, hrecord, hcompleted.trans htasks.symm, fun history hno => ?_⟩
  have hchain := hno.chained.chain
  rw [← hno.stored.2, hevents] at hchain
  simp at hchain

end PassVault
