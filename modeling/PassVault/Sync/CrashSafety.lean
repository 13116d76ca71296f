import PassVault.Lib.Machine
import PassVault.Sync.Operations

/-!
# Crashes of the desktop store

Operations one after the other over `openLocalStore` of `packages/storage-node/src/store.ts`, with
other calls of `put` beside them, and a crash between any two steps. `ingestReceivedRevision` and
`merge` save a revision outside a transaction, where its row and each of its parents commit by
themselves.
-/

namespace PassVault

open Journal Machine

/-- The directory of a device, and the operation that runs on it. -/
structure Desktop where
  files : FileBlobStore
  db : Db Annals SqlStatement
  /-- The call of `put` that the operation started. -/
  put : Option Nat

inductive DesktopAction where
  | start (operation : Operation)
  /-- Somebody else stores bytes. -/
  | store (bytes : Bytes)
  /-- The next file-system step of a call of `put`. -/
  | advance (call : Nat)
  /-- The next statement of the operation. -/
  | next
  /-- The process stops and starts again. -/
  | crash (kept : Bytes → Bytes)

/-- The head of a vault that the last of its events names. -/
def Tables.lastHead (t : Tables) (vaultId : VaultId) : Option RevisionId :=
  ((t.headEvents.filter (·.vaultId = vaultId)).getLast?).map (·.nextRevisionId)

/-- The statement inserts a parent of a revision that is stored without it. -/
def Tables.Lacks (t : Tables) : Instr SqlStatement → Prop
  | .run (.insertParent id p) => t.hasRevision id = true ∧ ¬ t.StoredParent id p
  | _ => False

instance (t : Tables) (instr : Instr SqlStatement) : Decidable (t.Lacks instr) := by
  unfold Tables.Lacks
  split <;> infer_instance

namespace Desktop

def opened : Desktop := ⟨.empty, .opened .empty, none⟩

/-- What a crash leaves of the database. -/
def tables (s : Desktop) : Tables := s.db.committed.tables

/-- Does the operation wait for its `put`? -/
def Putting (s : Desktop) : Prop := s.put.any fun i => (s.files.puts i).isSome

instance (s : Desktop) : Decidable s.Putting := inferInstanceAs (Decidable (_ = _))

def Idle (s : Desktop) : Prop := s.db.rest.isEmpty ∧ ¬ s.Putting

instance (s : Desktop) : Decidable s.Idle := inferInstanceAs (Decidable (_ ∧ _))

/-- An operation starts with its `put`, if it has one. -/
def start (plan : Plan) (s : Desktop) : Desktop where
  files := plan.put.elim s.files fun bytes => s.files.put bytes
  db := { s.db with rest := plan.script }
  put := plan.put.map fun _ => s.files.started

def restart (kept : Bytes → Bytes) (s : Desktop) : Desktop :=
  ⟨s.files.restart kept, .opened s.db.committed, none⟩

def step (deps : EngineDeps) (s : Desktop) : DesktopAction → Option Desktop
  | .start operation =>
    if s.Idle ∧ operation.HasNewIds s.tables then
      some (s.start (operation.plan deps s.files s.tables))
    else none
  | .store bytes => some { s with files := s.files.put bytes }
  | .advance i => (s.files.advance deps.sha256 i).map fun files => { s with files }
  | .next => if s.Putting then none else (s.db.next Annals.exec).map fun db => { s with db }
  | .crash kept => some (s.restart kept)

/-- What holds of the directory after a restart. -/
structure Durable (deps : EngineDeps) (s : Desktop) : Prop where
  blobs : ∀ id row, s.tables.revisions.find id = some row →
    ∃ bytes, s.files.get row.hash = some bytes ∧ deps.sha256 bytes = row.hash
  parents : ∀ id, s.tables.hasRevision id = true → ∃ parentIds,
    s.db.committed.given id = some parentIds ∧ ∀ p, p ∈ s.tables.parentsOf id ↔ p ∈ parentIds
  heads : ∀ vaultId vault, s.tables.getVault vaultId = some vault →
    vault.headRevisionId = s.tables.lastHead vaultId ∧
      ∀ head, vault.headRevisionId = some head → s.tables.hasRevision head = true

/-- A revision is stored, and the statements that are left insert one of its parents. -/
def Halfway (s : Desktop) : Prop := ∃ instr ∈ s.db.rest, s.tables.Lacks instr

instance (s : Desktop) : Decidable s.Halfway := inferInstanceAs (Decidable (∃ instr ∈ _, _))

/-- The process does not stop halfway through the parents of a revision. -/
def Whole (s : Desktop) : DesktopAction → Prop
  | .crash _ => ¬ s.Halfway
  | _ => True

instance (s : Desktop) (action : DesktopAction) : Decidable (s.Whole action) := by
  cases action <;> unfold Whole <;> infer_instance

end Desktop

/-! ## What a statement does to the history -/

namespace Annals

/-- Every stored revision has the parents that it was given. -/
def Kept (d : Annals) : Prop :=
  ∀ id, d.tables.hasRevision id = true → ∃ parentIds,
    d.given id = some parentIds ∧ ∀ p, d.tables.StoredParent id p ↔ p ∈ parentIds

/-- What holds of the tables besides. -/
structure Framed (d : Annals) : Prop where
  edges : ∀ id p, d.tables.StoredParent id p → d.tables.hasRevision id = true
  events : ∀ event ∈ d.tables.headEvents, d.tables.vaults.has event.vaultId = true
  heads : ∀ vaultId vault, d.tables.getVault vaultId = some vault →
    vault.headRevisionId = d.tables.lastHead vaultId ∧
      ∀ head, vault.headRevisionId = some head → d.tables.hasRevision head = true

structure Sound (d : Annals) : Prop extends Framed d where
  kept : d.Kept

theorem sound_empty : Sound empty := ⟨⟨nofun, nofun, nofun⟩, nofun⟩

/-- A row of `vaults`, and head events, have been written. -/
def written (vault : Vault) (events : List HeadRevisionEvent) (d : Annals) : Annals :=
  { d with
    tables := { d.tables.saveVault vault with headEvents := d.tables.headEvents ++ events } }

theorem getVault_written {vault : Vault} {events : List HeadRevisionEvent} {d : Annals}
    {vaultId : VaultId} {row : Vault}
    (h : (d.written vault events).tables.getVault vaultId = some row) :
    (vault.id = vaultId ∧ row.headRevisionId = vault.headRevisionId) ∨
      (vault.id ≠ vaultId ∧ d.tables.getVault vaultId = some row) := by
  replace h := (Table.find_upsert ..).symm.trans h
  split at h
  · rename_i hid
    cases h
    refine .inl ⟨hid, ?_⟩
    cases d.tables.vaults.find vaultId <;> rfl
  · rename_i hid
    exact .inr ⟨hid, h⟩

/-- A row whose head is that of its last event may be written. -/
theorem sound_written {d : Annals} (hd : d.Sound) {vault : Vault}
    {events : List HeadRevisionEvent} (hevents : ∀ event ∈ events, event.vaultId = vault.id)
    (hhead : vault.headRevisionId = (d.written vault events).tables.lastHead vault.id)
    (hstored : ∀ head, vault.headRevisionId = some head → d.tables.hasRevision head = true) :
    (d.written vault events).Sound := by
  refine ⟨⟨hd.edges, fun event hevent => ?_, fun vaultId row hrow => ?_⟩, hd.kept⟩
  · rcases List.mem_append.mp hevent with hevent | hevent
    · exact Table.has_upsert_of_has (hd.events event hevent)
    · rw [hevents event hevent]
      exact Tables.has_saveVault vault d.tables
  · rcases getVault_written hrow with ⟨rfl, hsame⟩ | ⟨hid, hrow⟩
    · rw [hsame]
      exact ⟨hhead, hstored⟩
    · obtain ⟨hlast, hstored⟩ := hd.heads vaultId row hrow
      refine ⟨hlast.trans ?_, hstored⟩
      have hother : events.filter (·.vaultId = vaultId) = [] := by
        rw [List.filter_eq_nil_iff]
        intro event hevent
        simp [hevents event hevent, hid]
      rw [Tables.lastHead, Tables.lastHead, written, List.filter_append, hother, List.append_nil]

/-- A vault that is not known has no head events. -/
theorem lastHead_unknown {d : Annals} (hd : d.Framed) {vaultId : VaultId}
    (hnew : d.tables.vaults.has vaultId = false) : d.tables.lastHead vaultId = none := by
  have hnone : d.tables.headEvents.filter (·.vaultId = vaultId) = [] := by
    rw [List.filter_eq_nil_iff]
    intro event hevent heq
    have hknown := hd.events event hevent
    rw [of_decide_eq_true heq, hnew] at hknown
    cases hknown
  rw [Tables.lastHead, hnone]
  rfl

/-! ## A revision and its parents -/

/-- The row of a revision has been inserted, and `parentIds` of its parents. -/
def partway (revision : Revision) (parentIds : List RevisionId) (d : Annals) : Annals :=
  d.created revision
    (({ d.tables with revisions := d.tables.revisions.insert revision.row } : Tables).insertParents
      revision.id parentIds)

variable {d : Annals} {revision : Revision} {parentIds : List RevisionId}

theorem hasRevision_partway {id : RevisionId} :
    (d.partway revision parentIds).tables.hasRevision id = true ↔
      id = revision.id ∨ d.tables.hasRevision id = true := by
  have hfind := Table.find_insert d.tables.revisions revision.row id
  change (d.tables.revisions.insert revision.row).has id = true ↔ _
  rw [Table.has, hfind]
  split
  · rename_i hid
    exact ⟨fun _ => .inl hid.symm, fun _ => rfl⟩
  · rename_i hid
    exact ⟨.inr, fun h => h.resolve_left fun heq => hid heq.symm⟩

theorem storedParent_partway {x p : RevisionId} :
    (d.partway revision parentIds).tables.StoredParent x p ↔
      d.tables.StoredParent x p ∨ (x = revision.id ∧ p ∈ parentIds) :=
  Tables.storedParent_insertParents

theorem given_partway (hnew : d.tables.hasRevision revision.id = false) (id : RevisionId) :
    (d.partway revision parentIds).given id =
      if id = revision.id then some revision.parentIds else d.given id := by
  have hgiven : (d.partway revision parentIds).given =
      Function.update d.given revision.id (some revision.parentIds) :=
    if_neg (by rw [hnew]; exact Bool.false_ne_true)
  rw [hgiven, Function.update_apply]

theorem framed_partway (hd : d.Framed) : (d.partway revision parentIds).Framed := by
  refine ⟨fun id p hp => ?_, hd.events, fun vaultId vault hvault => ?_⟩
  · rcases storedParent_partway.mp hp with hp | ⟨rfl, -⟩
    · exact hasRevision_partway.mpr (.inr (hd.edges id p hp))
    · exact hasRevision_partway.mpr (.inl rfl)
  · obtain ⟨hlast, hstored⟩ := hd.heads vaultId vault hvault
    exact ⟨hlast, fun head hhead => hasRevision_partway.mpr (.inr (hstored head hhead))⟩

theorem not_storedParent (hd : d.Framed) (hnew : d.tables.hasRevision revision.id = false)
    (p : RevisionId) : ¬ d.tables.StoredParent revision.id p := by
  intro hp
  have hstored := hd.edges _ p hp
  rw [hnew] at hstored
  cases hstored

/-- Of a new revision, the parents are as given once all have been inserted. -/
theorem kept_partway_iff (hd : d.Sound) (hnew : d.tables.hasRevision revision.id = false)
    (hparents : parentIds ⊆ revision.parentIds) :
    (d.partway revision parentIds).Kept ↔ revision.parentIds ⊆ parentIds := by
  have hnone := not_storedParent hd.toFramed hnew
  constructor
  · intro hkept p hp
    obtain ⟨given, hgiven, hiff⟩ := hkept revision.id (hasRevision_partway.mpr (.inl rfl))
    rw [given_partway hnew, if_pos rfl] at hgiven
    cases hgiven
    have hp := storedParent_partway.mp ((hiff p).mpr hp)
    exact (hp.resolve_left (hnone p)).2
  · intro hall id hid
    by_cases hsame : id = revision.id
    · subst hsame
      refine ⟨revision.parentIds, by rw [given_partway hnew, if_pos rfl], fun p => ?_⟩
      rw [storedParent_partway]
      constructor
      · rintro (hp | ⟨-, hp⟩)
        · exact absurd hp (hnone p)
        · exact hparents hp
      · exact fun hp => .inr ⟨rfl, hall hp⟩
    · obtain ⟨given, hgiven, hiff⟩ := hd.kept id ((hasRevision_partway.mp hid).resolve_left hsame)
      refine ⟨given, by rw [given_partway hnew, if_neg hsame, hgiven], fun p => ?_⟩
      rw [storedParent_partway, ← hiff p]
      exact ⟨fun h => h.resolve_right fun h => hsame h.1, .inl⟩

/-! ### The statements of `saveRevision` -/

theorem perform_requireParents (id : RevisionId) (parentIds : List RevisionId) (d : Annals) :
    perform exec (parentIds.map (.requireParent id)) d =
      (d.tables.checkParents id parentIds).map fun _ => d := by
  induction parentIds with
  | nil => rfl
  | cons parentId rest ih =>
    simp only [List.map_cons, perform, exec, Tables.checkParents]
    cases assert (d.tables.hasRevision parentId) _ with
    | error e => rfl
    | ok _ => exact ih

theorem exec_insertParent (done : List RevisionId) (parentId : RevisionId) :
    exec (.insertParent revision.id parentId) (d.partway revision done) =
      .ok (d.partway revision (done ++ [parentId])) := by
  rw [exec, partway, partway, created, created, Tables.insertParents, Tables.insertParents,
    Tables.insertParents, List.foldl_append]

theorem perform_insertParents (done rest : List RevisionId) :
    perform exec (rest.map (.insertParent revision.id)) (d.partway revision done) =
      .ok (d.partway revision (done ++ rest)) := by
  induction rest generalizing done with
  | nil => rw [List.append_nil]; rfl
  | cons parentId rest ih =>
    rw [List.map_cons, perform, exec_insertParent]
    refine (ih (done ++ [parentId])).trans ?_
    rw [List.append_assoc]
    rfl

theorem exec_insertRevision :
    exec (.insertRevision revision) d =
      (d.tables.insertRevision revision.row).map fun _ => d.partway revision [] := by
  rw [exec, Tables.insertRevision]
  split <;> rfl

/-- One after the other, they do what `saveRevision` does. -/
theorem perform_saveRevision (revision : Revision) (d : Annals) :
    perform exec (Plan.saveRevision revision) d =
      (d.tables.saveRevision revision).map fun tables => d.created revision tables := by
  rw [Plan.saveRevision, perform_append, perform_requireParents, Tables.saveRevision]
  cases d.tables.checkParents revision.id revision.parentIds with
  | error e => rfl
  | ok _ =>
    change (exec _ d).bind _ = _
    rw [exec_insertRevision]
    rw [Tables.insertRevision]
    split
    · exact perform_insertParents [] revision.parentIds
    · rfl

theorem perform_saveRevision_ok {d' : Annals}
    (h : perform exec (Plan.saveRevision revision) d = .ok d') :
    d' = d.partway revision revision.parentIds := by
  rw [perform_saveRevision] at h
  cases hsave : d.tables.saveRevision revision with
  | error e =>
    rw [hsave] at h
    cases h
  | ok tables =>
    rw [hsave] at h
    cases h
    obtain ⟨-, -, rfl⟩ := Tables.saveRevision_ok hsave
    rfl

theorem sound_saved (hd : d.Sound) (hnew : d.tables.hasRevision revision.id = false) :
    (d.partway revision revision.parentIds).Sound :=
  ⟨framed_partway hd.toFramed, (kept_partway_iff hd hnew (List.Subset.refl _)).mpr
    (List.Subset.refl _)⟩

theorem exec_saveVault (vault : Vault) (d : Annals) :
    exec (.saveVault vault) d = .ok (d.written vault []) := by
  rw [exec, written, List.append_nil]
  rfl

/-- A vault that is not known may be written without a head. -/
theorem sound_createVault (hd : d.Sound) {vault : Vault}
    (hnew : d.tables.vaults.has vault.id = false) (hhead : vault.headRevisionId = none) :
    (d.written vault []).Sound := by
  refine sound_written hd nofun ?_ ?_
  · rw [hhead, Tables.lastHead, written, List.append_nil]
    exact (lastHead_unknown hd.toFramed hnew).symm
  · intro head h
    rw [hhead] at h
    cases h

/-- The head moves to a stored revision, with the event. -/
theorem sound_moveHead (hd : d.Sound) {vault : Vault} {event : HeadRevisionEvent} {d' : Annals}
    (hvault : event.vaultId = vault.id)
    (hhead : vault.headRevisionId = some event.nextRevisionId)
    (hstored : d.tables.hasRevision event.nextRevisionId = true)
    (h : perform exec [.saveVault vault, .appendHeadEvent event] d = .ok d') : d'.Sound := by
  have hwritten : d' = d.written vault [event] := by
    simp only [perform, exec, Except.bind, Tables.appendHeadEvent] at h
    split at h
    · cases h
    · rename_i happend
      split at happend
      · cases happend
        cases h
        rfl
      · cases happend
  subst hwritten
  refine sound_written hd (by simpa using hvault) ?_ ?_
  · rw [hhead, Tables.lastHead, written, List.filter_append]
    simp [hvault]
  · intro head h
    rw [hhead] at h
    cases h
    exact hstored

/-! ### What is left of a script -/

/-- Parents are missing where the statements that insert them are left. -/
def Accounted (rest : List (Instr SqlStatement)) (d : Annals) : Prop :=
  d.Framed ∧ (d.Kept ↔ ¬ ∃ instr ∈ rest, d.tables.Lacks instr)

theorem accounted_nil : Accounted [] d ↔ d.Sound := by
  simp only [Accounted, List.not_mem_nil, false_and, exists_false, not_false_iff, iff_true]
  exact ⟨fun h => ⟨h.1, h.2⟩, fun h => ⟨h.toFramed, h.kept⟩⟩

/-- The statements that are left are those of revisions that are not stored. -/
theorem accounted_of_sound (hd : d.Sound) {rest : List (Instr SqlStatement)}
    (hrest : ∀ id p, .run (.insertParent id p) ∈ rest → d.tables.hasRevision id = false) :
    Accounted rest d := by
  refine ⟨hd.toFramed, iff_of_true hd.kept ?_⟩
  rintro ⟨instr, hmem, hlacks⟩
  unfold Tables.Lacks at hlacks
  split at hlacks
  · rename_i id p
    rw [hrest id p hmem] at hlacks
    cases hlacks.1
  · exact hlacks

theorem holds_transaction (hd : d.Sound) {body : List SqlStatement}
    (hbody : ∀ id p, .insertParent id p ∈ body → d.tables.hasRevision id = false)
    (hend : ∀ d', perform exec body d = .ok d' → d'.Sound) :
    Holds exec Accounted (inTransaction body) d none := by
  apply holds_inTransaction
  · refine accounted_of_sound hd fun id p hmem => hbody id p ?_
    simpa [inTransaction] using hmem
  · intro left hleft
    refine accounted_of_sound hd fun id p hmem => hbody id p (hleft.subset ?_)
    simpa using hmem
  · exact accounted_nil.mpr hd
  · exact fun d' h => accounted_nil.mpr (hend d' h)

/-- One statement that commits by itself. -/
theorem holds_saveVault (hd : d.Sound) {vault : Vault} (hend : (d.written vault []).Sound) :
    Holds exec Accounted [.run (.saveVault vault)] d none := by
  refine ⟨accounted_of_sound hd (by simp), ?_⟩
  rw [Option.getD_none, exec_saveVault]
  exact ⟨accounted_nil.mpr hend, rfl⟩

/-- The row and some of the parents have been inserted, the others are left. -/
theorem accounted_partway (hd : d.Sound) (hnew : d.tables.hasRevision revision.id = false)
    {done rest : List RevisionId} (hparents : revision.parentIds = done ++ rest) :
    Accounted ((rest.map (.insertParent revision.id)).map .run) (d.partway revision done) := by
  have hdone : done ⊆ revision.parentIds := hparents ▸ List.subset_append_left done rest
  have hlacks : ∀ p, (d.partway revision done).tables.Lacks
      (.run (.insertParent revision.id p)) ↔ p ∉ done := by
    intro p
    rw [Tables.Lacks, storedParent_partway, hasRevision_partway]
    simp [not_storedParent hd.toFramed hnew p]
  refine ⟨framed_partway hd.toFramed, ?_⟩
  rw [kept_partway_iff hd hnew hdone, hparents]
  simp only [List.mem_map, exists_exists_and_eq_and, hlacks, not_exists, not_and, not_not]
  constructor
  · exact fun hall p hp => hall (List.mem_append_right _ hp)
  · intro hall p hp
    exact (List.mem_append.mp hp).elim id (hall p)

theorem holds_insertParents (hd : d.Sound) (hnew : d.tables.hasRevision revision.id = false)
    {done rest : List RevisionId} (hparents : revision.parentIds = done ++ rest) :
    Holds exec Accounted ((rest.map (.insertParent revision.id)).map .run)
      (d.partway revision done) none := by
  have hnow := accounted_partway hd hnew hparents
  induction rest generalizing done with
  | nil => exact ⟨hnow, rfl⟩
  | cons parentId rest ih =>
    have hrest : revision.parentIds = done ++ [parentId] ++ rest := by simpa using hparents
    refine ⟨hnow, ?_⟩
    rw [Option.getD_none, exec_insertParent]
    exact ih hrest (accounted_partway hd hnew hrest)

theorem holds_insertRevision (hd : d.Sound) (hnew : d.tables.hasRevision revision.id = false) :
    Holds exec Accounted ((SqlStatement.insertRevision revision ::
      revision.parentIds.map (.insertParent revision.id)).map .run) d none := by
  refine ⟨accounted_of_sound hd fun id p hmem => ?_, ?_⟩
  · obtain ⟨_, _, rfl, rfl⟩ : ∃ p' ∈ revision.parentIds, revision.id = id ∧ p' = p := by
      simpa using hmem
    exact hnew
  · rw [Option.getD_none, exec_insertRevision]
    cases d.tables.insertRevision revision.row with
    | error e => exact accounted_nil.mpr hd
    | ok tables => exact holds_insertParents hd hnew rfl

/-- The checks change nothing. -/
theorem holds_requireParents (hd : d.Sound) {id : RevisionId} {tail : List SqlStatement}
    (hnew : ∀ id p, .insertParent id p ∈ tail → d.tables.hasRevision id = false)
    (htail : Holds exec Accounted (tail.map .run) d none) (parentIds : List RevisionId) :
    Holds exec Accounted ((parentIds.map (SqlStatement.requireParent id) ++ tail).map .run) d
      none := by
  induction parentIds with
  | nil => exact htail
  | cons parentId rest ih =>
    refine ⟨accounted_of_sound hd fun id p hmem => hnew id p (by simpa using hmem), ?_⟩
    rw [Option.getD_none, exec]
    cases d.tables.checkParents id [parentId] with
    | error e => exact accounted_nil.mpr hd
    | ok _ => exact ih

/-- `saveRevision` outside a transaction. -/
theorem holds_saveRevision (hd : d.Sound) (hnew : d.tables.hasRevision revision.id = false) :
    Holds exec Accounted ((Plan.saveRevision revision).map .run) d none := by
  refine holds_requireParents hd (fun id p hmem => ?_) (holds_insertRevision hd hnew) _
  obtain ⟨-, rfl⟩ : p ∈ revision.parentIds ∧ revision.id = id := by simpa using hmem
  exact hnew

end Annals

/-! ## The plans -/

/-- Wherever the statements are cut off the history is accounted for, and a revision that they save
is one of the bytes that are put before. -/
structure Plan.Safe (deps : EngineDeps) (d : Annals) (plan : Plan) : Prop where
  holds : Holds Annals.exec Annals.Accounted plan.script d none
  hashes : ∀ revision, .run (.insertRevision revision) ∈ plan.script →
    ∃ bytes, plan.put = some bytes ∧ revision.hash = deps.sha256 bytes

namespace Plan

open Annals

variable {deps : EngineDeps} {d : Annals}

theorem mem_saveRevision {revision revision' : Revision}
    (h : .insertRevision revision' ∈ saveRevision revision) : revision' = revision := by
  simpa [saveRevision] using h

theorem new_of_mem_saveRevision {revision : Revision}
    (hnew : d.tables.hasRevision revision.id = false) {id p : RevisionId}
    (h : .insertParent id p ∈ saveRevision revision) : d.tables.hasRevision id = false := by
  obtain ⟨-, rfl⟩ : p ∈ revision.parentIds ∧ revision.id = id := by simpa [saveRevision] using h
  exact hnew

theorem safe_nothing (hd : d.Sound) : nothing.Safe deps d :=
  ⟨⟨accounted_nil.mpr hd, rfl⟩, by simp [nothing]⟩

theorem safe_putAndSave (hd : d.Sound) {bytes : Bytes} {result : Except Failure Revision}
    (hresult : ∀ revision, result = .ok revision →
      d.tables.hasRevision revision.id = false ∧ revision.hash = deps.sha256 bytes) :
    (putAndSave bytes result).Safe deps d := by
  cases result with
  | error e => exact ⟨⟨accounted_nil.mpr hd, rfl⟩, by simp [putAndSave]⟩
  | ok revision =>
    obtain ⟨hnew, hhash⟩ := hresult revision rfl
    refine ⟨holds_saveRevision hd hnew, fun revision' hmem => ⟨bytes, rfl, ?_⟩⟩
    have hmem : .insertRevision revision' ∈ saveRevision revision := by
      simpa [putAndSave] using hmem
    rw [mem_saveRevision hmem]
    exact hhash

theorem safe_commitHeadMove (hd : d.Sound) {result : Except Failure (Vault × HeadRevisionEvent)}
    (hresult : ∀ vault event, result = .ok (vault, event) → event.vaultId = vault.id ∧
      vault.headRevisionId = some event.nextRevisionId ∧
      d.tables.hasRevision event.nextRevisionId = true) :
    (commitHeadMove result).Safe deps d := by
  cases result with
  | error e => exact safe_nothing hd
  | ok moved =>
    obtain ⟨hvault, hhead, hstored⟩ := hresult moved.1 moved.2 rfl
    exact ⟨holds_transaction hd (by simp) fun d' h => sound_moveHead hd hvault hhead hstored h,
      by simp [commitHeadMove, inTransaction]⟩

/-- A transaction that saves a new revision and moves a head to it. -/
theorem safe_saveAndMove (hd : d.Sound) (before : List SqlStatement) {revision : Revision}
    {vault : Vault} {event : HeadRevisionEvent} {bytes : Bytes}
    (hbefore : ∀ d', perform exec before d = .ok d' →
      d'.Sound ∧ d'.tables.hasRevision revision.id = false)
    (hplain : ∀ statement ∈ before, ∃ vault, statement = .saveVault vault)
    (hnew : d.tables.hasRevision revision.id = false) (hvault : event.vaultId = vault.id)
    (hhead : vault.headRevisionId = some event.nextRevisionId)
    (hevent : event.nextRevisionId = revision.id) (hhash : revision.hash = deps.sha256 bytes) :
    Safe deps d ⟨some bytes, inTransaction (before ++ saveRevision revision ++
      [.saveVault vault, .appendHeadEvent event])⟩ := by
  refine ⟨holds_transaction hd ?_ ?_, ?_⟩
  · intro id p hmem
    rcases List.mem_append.mp hmem with hmem | hmem
    · rcases List.mem_append.mp hmem with hmem | hmem
      · obtain ⟨_, h⟩ := hplain _ hmem
        cases h
      · exact new_of_mem_saveRevision hnew hmem
    · simp at hmem
  · intro d' h
    rw [perform_append, perform_append] at h
    obtain ⟨d₂, h₂, h⟩ := bind_eq_ok.mp h
    obtain ⟨d₁, h₁, h₂⟩ := bind_eq_ok.mp h₂
    obtain ⟨hsound, hnew'⟩ := hbefore d₁ h₁
    rw [perform_saveRevision_ok h₂] at h
    refine sound_moveHead (sound_saved hsound hnew') hvault hhead ?_ h
    exact hasRevision_partway.mpr (.inl hevent)
  · intro revision' hmem
    refine ⟨bytes, rfl, ?_⟩
    have hmem : .insertRevision revision' ∈ before ∨
        .insertRevision revision' ∈ saveRevision revision := by
      simpa [inTransaction] using hmem
    rcases hmem with hmem | hmem
    · obtain ⟨_, h⟩ := hplain _ hmem
      cases h
    · rw [mem_saveRevision hmem]
      exact hhash

theorem safe_importVault (hd : d.Sound) {vaultId : VaultId} {stamp : Stamp} {name : String}
    {bytes : Bytes} {kdbxPath : Option FilePath}
    (hvault : d.tables.vaults.has vaultId = false)
    (hnew : d.tables.hasRevision stamp.revisionId = false) :
    (importVault deps vaultId stamp name bytes kdbxPath).Safe deps d := by
  let vault : Vault :=
    { id := vaultId, name, headRevisionId := none, kdbxPath, createdAt := stamp.now }
  refine safe_saveAndMove hd [.saveVault vault] (fun d' h => ?_) ?_ hnew rfl rfl rfl rfl
  · rw [perform, exec_saveVault] at h
    cases h
    exact ⟨sound_createVault hd hvault rfl, hnew⟩
  · intro statement hmem
    exact ⟨vault, List.mem_singleton.mp hmem⟩

theorem safe_recordLocalChange (hd : d.Sound) {stamp : Stamp} {vaultId : VaultId} {bytes : Bytes}
    (hnew : d.tables.hasRevision stamp.revisionId = false) :
    (recordLocalChange deps stamp vaultId bytes d.tables).Safe deps d := by
  rw [recordLocalChange]
  cases hvault : d.tables.getVault vaultId with
  | none => exact safe_nothing hd
  | some vault =>
    have hid : vault.id = vaultId := Table.key_of_find hvault
    simp only
    split
    · exact safe_nothing hd
    · refine safe_saveAndMove hd [] (fun d' h => ?_) nofun hnew hid.symm rfl rfl rfl
      cases h
      exact ⟨hd, hnew⟩

theorem safe_ingestReceivedRevision (hd : d.Sound) (now : Nat) (input : IngestInput) :
    (ingestReceivedRevision deps now input d.tables).Safe deps d := by
  simp only [ingestReceivedRevision]
  split
  · exact safe_nothing hd
  rename_i hnew
  split
  · exact safe_nothing hd
  split
  · exact safe_nothing hd
  apply safe_putAndSave hd
  intro revision hrevision
  obtain ⟨-, rfl⟩ := receivedRevision_ok hrevision
  exact ⟨by simpa using hnew, rfl⟩

theorem safe_merge (hd : d.Sound) {stamp : Stamp}
    (hnew : d.tables.hasRevision stamp.revisionId = false) (vaultId : VaultId)
    (baseRevisionId : RevisionId) (incomingRevisionIds : List RevisionId)
    (message : Option String) (files : FileBlobStore) :
    (merge deps stamp vaultId baseRevisionId incomingRevisionIds message files d.tables).Safe
      deps d := by
  rw [merge]
  split
  · split
    · apply safe_putAndSave hd
      intro revision hrevision
      rw [mergedRevision_ok hrevision]
      exact ⟨hnew, rfl⟩
    · exact safe_nothing hd
    · exact safe_nothing hd
  · exact safe_nothing hd

/-- Both head moves. -/
theorem safe_moveHead (hd : d.Sound) {vault : Vault} {revisionId : RevisionId} {revision : Revision}
    (hrevision : d.tables.getRevision revisionId = some revision) {now : Nat} {reason : HeadReason}
    {message : String} :
    (commitHeadMove (do
      assert (vault.id = revision.vaultId) message
      return moveHead vault revision.id now reason)).Safe deps d := by
  apply safe_commitHeadMove hd
  intro next event hmoved
  obtain ⟨-, hmoved⟩ := moved_ok hmoved
  cases hmoved
  have hid := Tables.id_of_getRevision hrevision
  obtain ⟨row, hrow, -⟩ := Tables.getRevision_eq_some.mp hrevision
  exact ⟨rfl, rfl, hid ▸ Table.has_iff.mpr ⟨row, hrow⟩⟩

theorem safe_promote (hd : d.Sound) (now : Nat) (vaultId : VaultId) (revisionId : RevisionId) :
    (promote now vaultId revisionId d.tables).Safe deps d := by
  rw [promote]
  split
  · rename_i vault revision hvault hrevision
    exact safe_moveHead hd hrevision
  · exact safe_nothing hd

theorem safe_fastForward (hd : d.Sound) (now : Nat) (vaultId : VaultId)
    (revisionId : RevisionId) : (fastForward now vaultId revisionId d.tables).Safe deps d := by
  rw [fastForward]
  split
  · rename_i vault revision hvault hrevision
    exact safe_moveHead hd hrevision
  · exact safe_nothing hd

theorem safe_saveVault (hd : d.Sound) {vault : Vault} (hend : (d.written vault []).Sound) :
    Safe deps d ⟨none, [.run (.saveVault vault)]⟩ :=
  ⟨holds_saveVault hd hend, by simp⟩

theorem safe_adoptVault (hd : d.Sound) (now : Nat) (vaultId : VaultId) (name : String) :
    (adoptVault now vaultId name d.tables).Safe deps d := by
  rw [adoptVault]
  split
  · exact safe_nothing hd
  · rename_i hnone
    refine safe_saveVault hd (sound_createVault hd ?_ rfl)
    exact Option.isSome_eq_false_iff.mpr (Option.isNone_iff_eq_none.mpr hnone)

theorem safe_bindVaultToFile (hd : d.Sound) (vaultId : VaultId) (kdbxPath : FilePath) :
    (bindVaultToFile vaultId kdbxPath d.tables).Safe deps d := by
  rw [bindVaultToFile]
  split
  · exact safe_nothing hd
  · rename_i vault hvault
    have hid : vault.id = vaultId := Table.key_of_find hvault
    subst hid
    obtain ⟨hlast, hstored⟩ := hd.heads vault.id vault hvault
    refine safe_saveVault hd (sound_written hd nofun ?_ hstored)
    rw [Tables.lastHead, written, List.append_nil]
    exact hlast

end Plan

theorem Operation.safe_plan {deps : EngineDeps} {d : Annals} (hd : d.Sound)
    {operation : Operation} (hnew : operation.HasNewIds d.tables) (files : FileBlobStore) :
    (operation.plan deps files d.tables).Safe deps d := by
  obtain ⟨hrevision, hvault⟩ := hnew
  cases operation with
  | importVault vaultId stamp name bytes kdbxPath =>
    exact Plan.safe_importVault hd (by simpa [generatedVault] using hvault)
      (by simpa [generated] using hrevision)
  | recordLocalChange stamp vaultId bytes =>
    exact Plan.safe_recordLocalChange hd (by simpa [generated] using hrevision)
  | ingestReceivedRevision now input => exact Plan.safe_ingestReceivedRevision hd now input
  | merge stamp vaultId baseRevisionId incomingRevisionIds message =>
    exact Plan.safe_merge hd (by simpa [generated] using hrevision) _ _ _ _ _
  | promote now vaultId revisionId => exact Plan.safe_promote hd now vaultId revisionId
  | fastForward now vaultId revisionId => exact Plan.safe_fastForward hd now vaultId revisionId
  | adoptVault now vaultId name => exact Plan.safe_adoptVault hd now vaultId name
  | bindVaultToFile vaultId kdbxPath => exact Plan.safe_bindVaultToFile hd vaultId kdbxPath

/-! ## Runs -/

namespace Desktop

variable {deps : EngineDeps} {s t : Desktop}

/-- The blobs of the revisions in the tables are in their place. -/
def Backed (files : FileBlobStore) (d : Annals) : Prop :=
  ∀ id row, d.tables.revisions.find id = some row → files.has row.hash = true

/-- What holds between the steps of a run. -/
structure Ordered (deps : EngineDeps) (s : Desktop) : Prop where
  files : s.files.Intact deps.sha256
  /-- The `put` of the operation was started before. -/
  before : ∀ i, s.put = some i → i < s.files.started
  holds : Holds Annals.exec Annals.Accounted s.db.rest s.db.committed s.db.view
  backed : s.db.All (Backed s.files)
  /-- The blob of a revision to come is in its place, or the operation waits for it. -/
  planned : ∀ revision, .run (.insertRevision revision) ∈ s.db.rest →
    s.files.has revision.hash = true ∨ ∃ i bytes stage, s.put = some i ∧
      s.files.puts i = some ⟨bytes, stage⟩ ∧ deps.sha256 bytes = revision.hash

theorem ordered_opened : Ordered deps opened where
  files := FileBlobStore.intact_empty
  before := nofun
  holds := ⟨Annals.accounted_nil.mpr Annals.sound_empty, rfl⟩
  backed := ⟨nofun, nofun⟩
  planned := nofun

/-- Between two operations the database is sound. -/
theorem Ordered.idle (hs : Ordered deps s) (hidle : s.Idle) :
    s.db.committed.Sound ∧ s.db.view = none := by
  have hholds := hs.holds
  rw [List.isEmpty_iff.mp hidle.1] at hholds
  exact ⟨Annals.accounted_nil.mp hholds.1, hholds.2⟩

theorem puts_put (bytes : Bytes) (files : FileBlobStore) (i : Nat) :
    (files.put bytes).puts i =
      if i = files.started then some ⟨bytes, .checking⟩ else files.puts i :=
  FileBlobStore.puts_move ..

theorem ordered_start (hs : Ordered deps s) (hidle : s.Idle) {operation : Operation}
    (hnew : operation.HasNewIds s.tables) :
    Ordered deps (s.start (operation.plan deps s.files s.tables)) := by
  obtain ⟨hsound, hview⟩ := hs.idle hidle
  have hplan : (operation.plan deps s.files s.tables).Safe deps s.db.committed :=
    Operation.safe_plan hsound hnew s.files
  generalize operation.plan deps s.files s.tables = plan at hplan
  obtain ⟨put, script⟩ := plan
  have hholds : Holds Annals.exec Annals.Accounted script s.db.committed s.db.view :=
    hview ▸ hplan.holds
  cases put with
  | none =>
    refine ⟨hs.files, nofun, hholds, hs.backed, fun revision hrevision => ?_⟩
    obtain ⟨bytes, hbytes, -⟩ := hplan.hashes revision hrevision
    cases hbytes
  | some bytes =>
    refine ⟨FileBlobStore.intact_put hs.files bytes, fun i hi => ?_, hholds, hs.backed,
      fun revision hrevision => .inr ?_⟩
    · cases hi
      exact Nat.lt_succ_self _
    · obtain ⟨_, hbytes, hhash⟩ := hplan.hashes revision hrevision
      cases hbytes
      exact ⟨s.files.started, bytes, .checking, rfl, (puts_put ..).trans (if_pos rfl), hhash.symm⟩

theorem exec_backed {statement : SqlStatement} {d d' : Annals} {files : FileBlobStore}
    (h : Annals.exec statement d = .ok d')
    (hstatement : ∀ revision, statement = .insertRevision revision →
      files.has revision.hash = true)
    (hd : Backed files d) : Backed files d' := by
  cases statement with
  | requireParent id p =>
    obtain ⟨_, -, h⟩ := bind_eq_ok.mp h
    cases h
    exact hd
  | insertRevision revision =>
    rw [Annals.exec_insertRevision] at h
    cases hinsert : d.tables.insertRevision revision.row with
    | error e =>
      rw [hinsert] at h
      cases h
    | ok tables =>
      rw [hinsert] at h
      cases h
      intro id row hrow
      replace hrow := (Table.find_insert ..).symm.trans hrow
      split at hrow
      · cases hfind : d.tables.revisions.find id with
        | none =>
          rw [hfind] at hrow
          cases hrow
          exact hstatement revision rfl
        | some old =>
          rw [hfind] at hrow
          cases hrow
          exact hd id _ hfind
      · exact hd id row hrow
  | insertParent id p =>
    cases h
    exact hd
  | saveVault vault =>
    cases h
    exact hd
  | appendHeadEvent event =>
    obtain ⟨tables, happend, h⟩ := bind_eq_ok.mp h
    cases h
    rw [Tables.appendHeadEvent] at happend
    split at happend
    · cases happend
      exact hd
    · cases happend

/-- The files may go on while every blob stays and the operation keeps its call or its blob. -/
theorem Ordered.setFiles (hs : Ordered deps s) {files : FileBlobStore}
    (hfiles : files.Intact deps.sha256) (hstarted : s.files.started ≤ files.started)
    (hhas : ∀ hash, s.files.has hash = true → files.has hash = true)
    (hputs : ∀ i bytes stage, i < s.files.started → s.files.puts i = some ⟨bytes, stage⟩ →
      (∃ next, files.puts i = some ⟨bytes, next⟩) ∨ files.has (deps.sha256 bytes) = true) :
    Ordered deps { s with files } := by
  refine ⟨hfiles, fun i hi => lt_of_lt_of_le (hs.before i hi) hstarted, hs.holds, ?_, ?_⟩
  · exact ⟨fun id row hrow => hhas _ (hs.backed.1 id row hrow),
      fun d hd id row hrow => hhas _ (hs.backed.2 d hd id row hrow)⟩
  · intro revision hrevision
    rcases hs.planned revision hrevision with hhash | ⟨i, bytes, stage, hi, hcall, hhash⟩
    · exact .inl (hhas _ hhash)
    · rcases hputs i bytes stage (hs.before i hi) hcall with ⟨next, hnext⟩ | hdone
      · exact .inr ⟨i, bytes, next, hi, hnext, hhash⟩
      · exact .inl (hhash ▸ hdone)

theorem ordered_next (hs : Ordered deps s) (hput : ¬ s.Putting) {db : Db Annals SqlStatement}
    (h : s.db.next Annals.exec = some db) : Ordered deps { s with db } := by
  -- The operation no longer waits, so the blobs of its revisions are in their place.
  have hplanned : ∀ revision, .run (.insertRevision revision) ∈ s.db.rest →
      s.files.has revision.hash = true := by
    intro revision hrevision
    rcases hs.planned revision hrevision with hhash | ⟨i, bytes, stage, hi, hcall, -⟩
    · exact hhash
    · refine absurd ?_ hput
      rw [Putting, hi, Option.any_some, hcall]
      rfl
  refine ⟨hs.files, hs.before, hs.holds.next h, ?_, fun revision hrevision => ?_⟩
  · refine hs.backed.next (fun statement d d' hmem hd hexec => ?_) h
    exact exec_backed hexec (fun revision heq => hplanned revision (heq ▸ hmem)) hd
  · exact .inl (hplanned revision (Db.next_rest h hrevision))

theorem ordered_restart (hs : Ordered deps s) (hwhole : ¬ s.Halfway) (kept : Bytes → Bytes) :
    Ordered deps (s.restart kept) where
  files := FileBlobStore.intact_restart hs.files kept
  before := nofun
  holds := by
    obtain ⟨hframed, hkept⟩ := hs.holds.now
    exact ⟨Annals.accounted_nil.mpr ⟨hframed, hkept.mpr hwhole⟩, rfl⟩
  backed := by
    refine ⟨fun id row hrow => ?_, nofun⟩
    rw [restart, FileBlobStore.has_restart]
    exact hs.backed.1 id row hrow
  planned := nofun

theorem ordered_step (hs : Ordered deps s) {action : DesktopAction} (hwhole : s.Whole action)
    (h : step deps s action = some t) : Ordered deps t := by
  cases action with
  | start operation =>
    rw [step] at h
    split at h
    · rename_i hstart
      cases h
      exact ordered_start hs hstart.1 hstart.2
    · cases h
  | store bytes =>
    cases h
    refine hs.setFiles (FileBlobStore.intact_put hs.files bytes) (Nat.le_succ _)
      (fun _ hhash => hhash) fun i bytes' stage hi hcall => .inl ⟨stage, ?_⟩
    rw [puts_put, if_neg (Nat.ne_of_lt hi), hcall]
  | advance i =>
    obtain ⟨files, hfiles, rfl⟩ := Option.map_eq_some_iff.mp h
    exact hs.setFiles (FileBlobStore.intact_advance hs.files hfiles)
      (FileBlobStore.started_advance hfiles).ge (fun _ => FileBlobStore.has_advance hfiles)
      fun j bytes stage _ => FileBlobStore.follow_advance hfiles
  | next =>
    rw [step] at h
    split at h
    · cases h
    · rename_i hput
      obtain ⟨db, hdb, rfl⟩ := Option.map_eq_some_iff.mp h
      exact ordered_next hs hput hdb
  | crash kept =>
    cases h
    exact ordered_restart hs hwhole kept

theorem durable_restart (hs : Ordered deps s) (hwhole : ¬ s.Halfway) (kept : Bytes → Bytes) :
    Durable deps (s.restart kept) := by
  have hafter := ordered_restart hs hwhole kept
  have hsound : s.db.committed.Sound := Annals.accounted_nil.mp hafter.holds.1
  refine ⟨fun id row hrow => ?_, fun id hid => ?_, hsound.heads⟩
  · obtain ⟨file, hfile⟩ := Option.isSome_iff_exists.mp (hafter.backed.1 id row hrow)
    refine ⟨file.content, ?_, (hafter.files.blobs row.hash file hfile).1⟩
    rw [FileBlobStore.get, hfile]
    rfl
  · obtain ⟨parentIds, hgiven, hiff⟩ := hsound.kept id hid
    exact ⟨parentIds, hgiven, fun p => Tables.mem_parentsOf.trans (hiff p)⟩

/-- After a crash the directory is as it should be unless a revision was halfway. -/
theorem durable_restart_iff (hs : Ordered deps s) (kept : Bytes → Bytes) :
    Durable deps (s.restart kept) ↔ ¬ s.Halfway := by
  refine ⟨fun hdurable => hs.holds.now.2.mp fun id hid => ?_, fun h => durable_restart hs h kept⟩
  obtain ⟨parentIds, hgiven, hiff⟩ := hdurable.parents id hid
  exact ⟨parentIds, hgiven, fun p => Tables.mem_parentsOf.symm.trans (hiff p)⟩

theorem durable_iff_whole (hs : Ordered deps s) (action : DesktopAction) :
    (∀ kept, action = .crash kept → Durable deps (s.restart kept)) ↔ s.Whole action := by
  cases action with
  | crash kept =>
    refine Iff.trans ?_ (durable_restart_iff hs kept)
    exact ⟨fun h => h kept rfl, fun h kept' heq => by cases heq; exact h⟩
  | _ => exact ⟨fun _ => trivial, fun _ _ heq => by cases heq⟩

/-- A crash loses nothing of what is stored, and leaves nothing half stored, unless it comes when
a revision that is saved outside a transaction has its row and not all of its parents. -/
theorem durable_iff_never_halfway (deps : EngineDeps) {actions : List DesktopAction} {s : Desktop}
    (h : play (step deps) opened actions = some s) :
    (∀ before kept after u, actions = before ++ .crash kept :: after →
      play (step deps) opened before = some u → Durable deps (u.restart kept)) ↔
      Meets (step deps) Whole opened actions := by
  have hcongr : Meets (step deps) _ opened actions ↔ Meets (step deps) Whole opened actions :=
    meets_congr (fun s action hs => durable_iff_whole hs action)
      (fun s action t hs hwhole => ordered_step hs hwhole) ordered_opened
  rw [← hcongr, meets_iff h]
  constructor
  · rintro hall before _ after u hsplit hbefore kept rfl
    exact hall before kept after u hsplit hbefore
  · intro hall before kept after u hsplit hbefore
    exact hall before (.crash kept) after u hsplit hbefore kept rfl

/-- A vault is imported. -/
def imported : List DesktopAction :=
  .start (.importVault ⟨"v"⟩ ⟨⟨"r1"⟩, 1⟩ "home" [1] none) ::
    (List.replicate 5 (.advance 0) ++ List.replicate 6 .next)

/-- A child of its revision is received, and `n` statements of `saveRevision` run. -/
def receiving (n : Nat) : List DesktopAction :=
  let input : IngestInput :=
    { vaultId := ⟨"v"⟩, revisionId := ⟨"r2"⟩, declaredParentIds := [⟨"r1"⟩]
      declaredHash := plainDeps.sha256 [2], bytes := [2], fromDeviceId := ⟨"phone"⟩
      message := none }
  imported ++ .start (.ingestReceivedRevision 2 input) ::
    (List.replicate 5 (.advance 1) ++ List.replicate n .next)

theorem receiving_runs : (play (step plainDeps) opened (receiving 2)).isSome := by decide +kernel

/-- Stopped after the row of the child, it has no parents. -/
theorem row_without_parents : ¬ ∀ actions s, play (step plainDeps) opened actions = some s →
    ∀ before kept after u, actions = before ++ .crash kept :: after →
      play (step plainDeps) opened before = some u → Durable plainDeps (u.restart kept) := by
  intro hall
  have hrun : (play (step plainDeps) opened (receiving 2 ++ [.crash id])).isSome := by
    decide +kernel
  have hdurable := hall _ _ (Option.some_get hrun).symm (receiving 2) id [] _ rfl
    (Option.some_get receiving_runs).symm
  obtain ⟨parentIds, hgiven, hiff⟩ := hdurable.parents ⟨"r2"⟩ (by decide +kernel)
  have hgiven' : (((play (step plainDeps) opened (receiving 2)).get receiving_runs).restart
      id).db.committed.given ⟨"r2"⟩ = some [⟨"r1"⟩] := by decide +kernel
  rw [hgiven'] at hgiven
  cases hgiven
  have hparents := (hiff ⟨"r1"⟩).mpr List.mem_cons_self
  revert hparents
  decide +kernel

theorem received_runs : (play (step plainDeps) opened (receiving 3 ++ [.crash id])).isSome := by
  decide +kernel

/-- Stopped after all of its statements, nothing is lost. -/
theorem durable_received : ∃ s, play (step plainDeps) opened (receiving 3 ++ [.crash id]) = some s ∧
    ∀ before kept after u, receiving 3 ++ [.crash id] = before ++ .crash kept :: after →
      play (step plainDeps) opened before = some u → Durable plainDeps (u.restart kept) :=
  ⟨_, (Option.some_get received_runs).symm,
    (durable_iff_never_halfway plainDeps (Option.some_get received_runs).symm).mpr
      (by decide +kernel)⟩

end Desktop

end PassVault
