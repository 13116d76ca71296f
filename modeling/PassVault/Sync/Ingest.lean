import PassVault.Lib.Runs
import PassVault.Sync.StoredHistory

/-!
# One call of `ingestReceivedRevision`

The accesses of a call one after the other, each of which may fail: those of `engine.ts` and the
statements of `SqliteMetadataStore.saveRevision`, which no transaction encloses. Where none fails
it is the call that `SyncEngine` makes.
-/

namespace PassVault

open Async

inductive IngestStep where
  /-- The engine looks for the revision. -/
  | present
  /-- The engine looks for a declared parent. -/
  | parent (i : Nat)
  | put
  /-- `saveRevision` looks for a parent. -/
  | requireParent (i : Nat)
  | insertRow
  | insertEdge (i : Nat)
deriving DecidableEq, Repr

/-- The failure of each access, for those that fail. -/
abbrev IngestFaults := IngestStep → Option Failure

inductive IngestOutcome where
  | answered (result : IngestResult)
  /-- `saveRevision` has thrown. -/
  | saveFailed (error : Failure)
  /-- Something before it has thrown. -/
  | threw (error : Failure)
deriving DecidableEq, Repr

def IngestOutcome.toExcept : IngestOutcome → Except Failure IngestResult
  | .answered result => .ok result
  | .saveFailed error | .threw error => .error error

namespace IngestFaults

variable (faults : IngestFaults)

def access (a : IngestStep) : Except Failure Unit :=
  match faults a with
  | some error => .error error
  | none => .ok ()

/-- The loop of `ingestReceivedRevision` over the declared parents. -/
def firstMissing (t : Tables) : Nat → List RevisionId → Except Failure (Option RevisionId)
  | _, [] => .ok none
  | i, parentId :: rest => do
    faults.access (.parent i)
    if t.hasRevision parentId then firstMissing t (i + 1) rest else return some parentId

/-- The loop of `saveRevision` that checks the parents. -/
def checkParents (t : Tables) (revisionId : RevisionId) : Nat → List RevisionId → Except Failure Unit
  | _, [] => .ok ()
  | i, parentId :: rest => do
    faults.access (.requireParent i)
    t.checkParents revisionId [parentId]
    checkParents t revisionId (i + 1) rest

/-- The loop of `saveRevision` that inserts the edges. -/
def insertParents (revisionId : RevisionId) :
    Nat → List RevisionId → Tables → Except Failure Unit × Tables
  | _, [], t => (.ok (), t)
  | i, parentId :: rest, t =>
    match faults.access (.insertEdge i) with
    | .error error => (.error error, t)
    | .ok () => insertParents revisionId (i + 1) rest (t.insertParents revisionId [parentId])

def saveRevision (revision : Revision) (t : Tables) : Except Failure Unit × Tables :=
  match faults.checkParents t revision.id 0 revision.parentIds with
  | .error error => (.error error, t)
  | .ok () =>
    match (do faults.access .insertRow; t.insertRevision revision.row) with
    | .error error => (.error error, t)
    | .ok t => faults.insertParents revision.id 0 revision.parentIds t

def ingestReceivedRevision (deps : EngineDeps) (now : Nat) (input : IngestInput) (s : Store) :
    IngestOutcome × Store :=
  match faults.access .present with
  | .error error => (.threw error, s)
  | .ok () =>
    if s.tables.hasRevision input.revisionId then
      (.answered (.alreadyPresent input.revisionId), s)
    else
      let actualHash := deps.sha256 input.bytes
      if actualHash ≠ input.declaredHash then
        (.answered (.rejected "received bytes do not match the declared hash"), s)
      else
        match faults.firstMissing s.tables 0 input.declaredParentIds with
        | .error error => (.threw error, s)
        | .ok (some parentId) =>
          (.answered (.rejected ("parent " ++ parentId.value ++ " must be received before " ++
            input.revisionId.value)), s)
        | .ok none =>
          match faults.access .put with
          | .error error => (.threw error, s)
          | .ok () =>
            let s := s.putBlob deps.sha256 input.bytes
            match receivedRevision
                ⟨input.revisionId, input.vaultId, actualHash, input.bytes.length, now,
                  input.message⟩ input.declaredParentIds input.fromDeviceId with
            | .error error => (.threw error, s)
            | .ok revision =>
              match faults.saveRevision revision s.tables with
              | (.error error, tables) => (.saveFailed error, s.setTables tables)
              | (.ok (), tables) => (.answered (.stored revision), s.setTables tables)

end IngestFaults

/-- The revision that an accepted call stores. -/
def IngestInput.received (deps : EngineDeps) (now : Nat) (input : IngestInput) : Revision :=
  (⟨input.revisionId, input.vaultId, deps.sha256 input.bytes, input.bytes.length, now,
    input.message⟩ : RevisionSeed).base input.declaredParentIds .received (some input.fromDeviceId)

/-- The store has gained the declared revision and nothing else. -/
structure StoredExactly (deps : EngineDeps) (input : IngestInput) (revision : Revision)
    (s t : Store) : Prop where
  id : revision.id = input.revisionId
  vaultId : revision.vaultId = input.vaultId
  originDeviceId : revision.originDeviceId = some input.fromDeviceId
  hash : revision.hash = deps.sha256 input.bytes
  sizeBytes : revision.sizeBytes = input.bytes.length
  new : s.tables.hasRevision input.revisionId = false
  rows : t.tables.revisions.rows = s.tables.revisions.rows ++ [revision.row]
  parents : ∀ p, t.tables.StoredParent input.revisionId p ↔ p ∈ input.declaredParentIds
  edges : ∀ x p, x ≠ input.revisionId → (t.tables.StoredParent x p ↔ s.tables.StoredParent x p)
  blob : t.getBlob revision.hash = some input.bytes
  rest : t.tables =
    { s.tables with
      revisions := t.tables.revisions, revisionParents := t.tables.revisionParents }

def AllOrNothing (deps : EngineDeps) (input : IngestInput) (s : Store) :
    IngestOutcome × Store → Prop
  | (.answered (.stored revision), t) => StoredExactly deps input revision s t
  | (.answered (.alreadyPresent _), t) | (.answered (.rejected _), t) => t = s
  | (.saveFailed _, t) => t.tables = s.tables
  | (.threw _, _) => True

/-- Nothing is wrong with what is to be stored. -/
structure IngestInput.Accepted (deps : EngineDeps) (input : IngestInput) (s : Store) : Prop where
  new : s.tables.hasRevision input.revisionId = false
  hash : deps.sha256 input.bytes = input.declaredHash
  parents : ∀ p ∈ input.declaredParentIds, s.tables.hasRevision p = true
  vault : s.tables.vaults.has input.vaultId = true

/-- No access before the edges fails. -/
structure IngestFaults.Undisturbed (faults : IngestFaults) (input : IngestInput) : Prop where
  present : faults .present = none
  parent : ∀ i < input.declaredParentIds.length, faults (.parent i) = none
  put : faults .put = none
  requireParent : ∀ i < input.declaredParentIds.length, faults (.requireParent i) = none
  insertRow : faults .insertRow = none

namespace IngestFaults

variable {faults : IngestFaults} {deps : EngineDeps} {now : Nat} {input : IngestInput} {s : Store}
  {t : Tables} {revisionId : RevisionId}

theorem access_eq_ok {a : IngestStep} {u : Unit} : faults.access a = .ok u ↔ faults a = none := by
  rw [access]
  split
  · rename_i error herror
    simp [herror]
  · rename_i hnone
    simp [hnone]

theorem forall_access {f : Nat → IngestStep} {k n : Nat} :
    (∀ i < n + 1, faults (f (k + i)) = none) ↔
      faults (f k) = none ∧ ∀ i < n, faults (f (k + 1 + i)) = none := by
  rw [Nat.forall_lt_succ_left]
  simp only [Nat.add_zero, Nat.add_right_comm k, Nat.add_assoc]

theorem firstMissing_eq_none {k : Nat} {parentIds : List RevisionId} :
    faults.firstMissing t k parentIds = .ok none ↔
      (∀ i < parentIds.length, faults (.parent (k + i)) = none) ∧
        ∀ p ∈ parentIds, t.hasRevision p = true := by
  induction parentIds generalizing k with
  | nil => simp [firstMissing]
  | cons parentId rest ih =>
    rw [firstMissing, List.length_cons, forall_access, List.forall_mem_cons]
    simp only [bind_eq_ok, access_eq_ok, exists_and_left, exists_const]
    split
    · rename_i hhas
      rw [ih]
      tauto
    · rename_i hlacks
      simp [hlacks, pure, Except.pure]

theorem checkParents_eq_ok {k : Nat} {parentIds : List RevisionId} {u : Unit} :
    faults.checkParents t revisionId k parentIds = .ok u ↔
      (∀ i < parentIds.length, faults (.requireParent (k + i)) = none) ∧
        ∀ p ∈ parentIds, t.hasRevision p = true := by
  induction parentIds generalizing k with
  | nil => simp [checkParents]
  | cons parentId rest ih =>
    rw [checkParents, List.length_cons, forall_access, List.forall_mem_cons]
    simp only [bind_eq_ok, access_eq_ok, Tables.checkParents_ok, exists_and_left, exists_const, ih,
      List.forall_mem_singleton]
    tauto

theorem insertParents_of_none {k : Nat} {parentIds : List RevisionId}
    (h : ∀ i < parentIds.length, faults (.insertEdge (k + i)) = none) :
    faults.insertParents revisionId k parentIds t = (.ok (), t.insertParents revisionId parentIds) := by
  induction parentIds generalizing k t with
  | nil => rfl
  | cons parentId rest ih =>
    obtain ⟨hfirst, hrest⟩ := forall_access.mp h
    rw [insertParents, (access_eq_ok (u := ())).mpr hfirst]
    exact ih hrest

theorem insertParents_of_some {k i : Nat} {parentIds : List RevisionId} (hi : i < parentIds.length)
    (h : faults (.insertEdge (k + i)) ≠ none) :
    ∃ error u, faults.insertParents revisionId k parentIds t = (.error error, u) ∧
      u.revisions = t.revisions := by
  induction parentIds generalizing k i t with
  | nil => cases hi
  | cons parentId rest ih =>
    rw [insertParents]
    split
    · exact ⟨_, _, rfl, rfl⟩
    · rename_i hfirst
      cases i with
      | zero => exact absurd (access_eq_ok.mp hfirst) h
      | succ i =>
        obtain ⟨error, u, heq, hu⟩ := ih (k := k + 1) (t := t.insertParents revisionId [parentId])
          (Nat.lt_of_succ_lt_succ hi) (by rwa [Nat.add_assoc, Nat.add_comm 1])
        exact ⟨error, u, heq, hu⟩

theorem receivedRevision_of_accepted (haccepted : input.Accepted deps s) :
    receivedRevision
      ⟨input.revisionId, input.vaultId, deps.sha256 input.bytes, input.bytes.length, now,
        input.message⟩ input.declaredParentIds input.fromDeviceId = .ok (input.received deps now) := by
  have hself : input.revisionId ∉ input.declaredParentIds := fun hmem =>
    Bool.false_ne_true (haccepted.new.symm.trans (haccepted.parents _ hmem))
  rw [receivedRevision, decide_eq_true hself]
  rfl

/-- What the row of the revision leaves. -/
def withRow (deps : EngineDeps) (now : Nat) (input : IngestInput) (t : Tables) : Tables :=
  { t with revisions := t.revisions.insert (input.received deps now).row }

theorem saveRevision_of_accepted (haccepted : input.Accepted deps s)
    (hundisturbed : faults.Undisturbed input) :
    faults.saveRevision (input.received deps now) s.tables =
      faults.insertParents input.revisionId 0 input.declaredParentIds
        (withRow deps now input s.tables) := by
  have hcheck : faults.checkParents s.tables input.revisionId 0 input.declaredParentIds = .ok () :=
    checkParents_eq_ok.mpr ⟨by simpa using hundisturbed.requireParent, haccepted.parents⟩
  have hrow : (do faults.access .insertRow; s.tables.insertRevision (input.received deps now).row) =
      .ok (withRow deps now input s.tables) := by
    refine bind_eq_ok.mpr ⟨(), access_eq_ok.mpr hundisturbed.insertRow, ?_⟩
    rw [Tables.insertRevision, if_pos (.inr haccepted.vault)]
    rfl
  unfold saveRevision
  rw [show (input.received deps now).id = input.revisionId from rfl,
    show (input.received deps now).parentIds = input.declaredParentIds from rfl, hcheck, hrow]

/-- Where nothing fails before the edges, an accepted call comes to them. -/
theorem ingest_of_accepted (haccepted : input.Accepted deps s)
    (hundisturbed : faults.Undisturbed input) :
    faults.ingestReceivedRevision deps now input s =
      match faults.insertParents input.revisionId 0 input.declaredParentIds
        (withRow deps now input s.tables) with
      | (.error error, tables) =>
        (.saveFailed error, (s.putBlob deps.sha256 input.bytes).setTables tables)
      | (.ok (), tables) => (.answered (.stored (input.received deps now)),
        (s.putBlob deps.sha256 input.bytes).setTables tables) := by
  have hmissing : faults.firstMissing s.tables 0 input.declaredParentIds = .ok none :=
    firstMissing_eq_none.mpr ⟨by simpa using hundisturbed.parent, haccepted.parents⟩
  rw [ingestReceivedRevision, (access_eq_ok (u := ())).mpr hundisturbed.present]
  dsimp only
  rw [haccepted.new, if_neg Bool.false_ne_true, if_neg (not_not_intro haccepted.hash), hmissing]
  dsimp only
  rw [(access_eq_ok (u := ())).mpr hundisturbed.put]
  dsimp only
  rw [receivedRevision_of_accepted haccepted]
  dsimp only
  rw [← saveRevision_of_accepted haccepted hundisturbed]
  rfl

/-- What fails before the edges leaves the tables as they were. -/
theorem saveRevision_or (faults : IngestFaults) (revision : Revision) (t : Tables) :
    (∃ error, faults.saveRevision revision t = (.error error, t)) ∨
      (faults.checkParents t revision.id 0 revision.parentIds = .ok () ∧
        faults .insertRow = none ∧
        (t.revisions.has revision.id = true ∨ t.vaults.has revision.vaultId = true)) := by
  unfold saveRevision
  split
  · exact .inl ⟨_, rfl⟩
  · rename_i hcheck
    split
    · exact .inl ⟨_, rfl⟩
    · rename_i u hrow
      obtain ⟨_, haccess, hinsert⟩ := bind_eq_ok.mp hrow
      refine .inr ⟨hcheck, access_eq_ok.mp haccess, ?_⟩
      rw [Tables.insertRevision] at hinsert
      split at hinsert
      · rename_i hvault
        exact hvault
      · cases hinsert

/-- Every other call does all or nothing. -/
theorem allOrNothing_or (faults : IngestFaults) (deps : EngineDeps) (now : Nat)
    (input : IngestInput) (s : Store) :
    AllOrNothing deps input s (faults.ingestReceivedRevision deps now input s) ∨
      (input.Accepted deps s ∧ faults.Undisturbed input) := by
  unfold ingestReceivedRevision
  split
  · exact .inl trivial
  · rename_i hpresent
    split
    · exact .inl rfl
    · rename_i hnew
      dsimp only
      split
      · exact .inl rfl
      · rename_i hhash
        split
        · exact .inl trivial
        · exact .inl rfl
        · rename_i hmissing
          obtain ⟨hparent, hparents⟩ := firstMissing_eq_none.mp hmissing
          split
          · exact .inl trivial
          · rename_i hput
            split
            · exact .inl trivial
            · rename_i revision hrevision
              obtain ⟨-, rfl⟩ := receivedRevision_ok hrevision
              rcases faults.saveRevision_or (input.received deps now) s.tables with
                ⟨error, hsave⟩ | ⟨hcheck, hrow, hvault⟩
              · refine .inl ?_
                have hsave' : faults.saveRevision (input.received deps now)
                    (s.putBlob deps.sha256 input.bytes).tables = (.error error, s.tables) := hsave
                rw [IngestInput.received] at hsave'
                rw [hsave']
                rfl
              · obtain ⟨hrequire, -⟩ := checkParents_eq_ok.mp hcheck
                exact .inr ⟨⟨Bool.eq_false_iff.mpr hnew, not_not.mp hhash, hparents,
                    hvault.resolve_left hnew⟩,
                  ⟨access_eq_ok.mp hpresent, by simpa using hparent, access_eq_ok.mp hput,
                    fun i hi => Nat.zero_add i ▸ hrequire i hi, hrow⟩⟩

theorem getBlob_putBlob (sha256 : Bytes → Sha256Hex) (s : Store) (bytes : Bytes) :
    (s.putBlob sha256 bytes).getBlob (sha256 bytes) =
      some ((s.getBlob (sha256 bytes)).getD bytes) := by
  rw [Store.getBlob, Store.putBlob, Table.find_insert, if_pos rfl, Store.getBlob]
  cases s.blobs.find (sha256 bytes) with
  | none => rfl
  | some row => rfl

/-- Where no access fails and the blob reads back, an accepted call stores what it was given. -/
theorem storedExactly_of_accepted (haccepted : input.Accepted deps s)
    (hedges : ∀ x p, s.tables.StoredParent x p → s.tables.hasRevision x = true)
    (hblob : (s.getBlob (deps.sha256 input.bytes)).getD input.bytes = input.bytes) :
    StoredExactly deps input (input.received deps now) s
      ((s.putBlob deps.sha256 input.bytes).setTables
        ((withRow deps now input s.tables).insertParents input.revisionId
          input.declaredParentIds)) where
  id := rfl
  vaultId := rfl
  originDeviceId := rfl
  hash := rfl
  sizeBytes := rfl
  new := haccepted.new
  rows := by
    have hnone : s.tables.revisions.find input.revisionId = none :=
      Option.not_isSome_iff_eq_none.mp (Bool.eq_false_iff.mp haccepted.new)
    exact (Table.rows_insert ..).trans (if_pos hnone)
  parents p := by
    refine Tables.storedParent_insertParents.trans ⟨fun h => ?_, fun hp => .inr ⟨rfl, hp⟩⟩
    rcases h with h | ⟨-, hp⟩
    · exact absurd (haccepted.new.symm.trans (hedges _ _ h)) Bool.false_ne_true
    · exact hp
  edges x p hx := Tables.storedParent_insertParents.trans (or_iff_left fun h => hx h.1)
  blob := (getBlob_putBlob ..).trans (congrArg some hblob)
  rest := rfl

/-- **Ingest is all or nothing.** It is, whatever the arguments, the store and the accesses that
fail, unless a revision is accepted, its row is written, and then one of its edges is not or its
blob is found to be other bytes. -/
theorem allOrNothing_iff
    (hedges : ∀ x p, s.tables.StoredParent x p → s.tables.hasRevision x = true) :
    AllOrNothing deps input s (faults.ingestReceivedRevision deps now input s) ↔
      ¬ (input.Accepted deps s ∧ faults.Undisturbed input ∧
        ((∃ i < input.declaredParentIds.length, faults (.insertEdge i) ≠ none) ∨
          ∃ other ∈ s.getBlob (deps.sha256 input.bytes), other ≠ input.bytes)) := by
  have hall_edges (h : ¬ ∃ i < input.declaredParentIds.length, faults (.insertEdge i) ≠ none) :
      faults.insertParents input.revisionId 0 input.declaredParentIds
        (withRow deps now input s.tables) = (.ok (), (withRow deps now input s.tables).insertParents
          input.revisionId input.declaredParentIds) := by
    apply insertParents_of_none
    intro i hi
    by_contra hne
    exact h ⟨i, hi, Nat.zero_add i ▸ hne⟩
  constructor
  · rintro hall ⟨haccepted, hundisturbed, hdefect⟩
    rw [ingest_of_accepted haccepted hundisturbed] at hall
    by_cases hedge : ∃ i < input.declaredParentIds.length, faults (.insertEdge i) ≠ none
    · obtain ⟨i, hi, hfails⟩ := hedge
      have hrefused : ∃ error u, faults.insertParents input.revisionId 0 input.declaredParentIds
          (withRow deps now input s.tables) = (.error error, u) ∧
          u.revisions = (withRow deps now input s.tables).revisions :=
        insertParents_of_some hi (by rwa [Nat.zero_add])
      obtain ⟨error, u, heq, hu⟩ := hrefused
      rw [heq] at hall
      have hrow : u.hasRevision input.revisionId = true := by
        rw [Tables.hasRevision, hu]
        exact Table.has_insert ..
      rw [show u = s.tables from hall, haccepted.new] at hrow
      cases hrow
    · obtain ⟨other, hother, hne⟩ := hdefect.resolve_left hedge
      rw [hall_edges hedge] at hall
      have hblob := (getBlob_putBlob deps.sha256 s input.bytes).symm.trans hall.blob
      rw [Option.mem_def.mp hother] at hblob
      exact hne (Option.some.inj hblob)
  · intro hnot
    rcases allOrNothing_or faults deps now input s with h | ⟨haccepted, hundisturbed⟩
    · exact h
    · have hedge : ¬ ∃ i < input.declaredParentIds.length, faults (.insertEdge i) ≠ none :=
        fun h => hnot ⟨haccepted, hundisturbed, .inl h⟩
      rw [ingest_of_accepted haccepted hundisturbed, hall_edges hedge]
      refine storedExactly_of_accepted haccepted hedges ?_
      cases hfound : s.getBlob (deps.sha256 input.bytes) with
      | none => rfl
      | some other =>
        by_contra hne
        exact hnot ⟨haccepted, hundisturbed, .inr ⟨other, hfound, hne⟩⟩

/-- An edit of the root of a vault that this device has imported. -/
def receivedEdit : IngestInput :=
  ⟨⟨"home"⟩, ⟨"h2"⟩, [⟨"h1"⟩], plainDeps.sha256 [2], [2], ⟨"phone"⟩, none⟩

def importedHome : Store := storeAfter [.importVault ⟨"home"⟩ ⟨⟨"h1"⟩, 1⟩ "home.kdbx" [1] none]

theorem allOrNothing_iff_stored :
    (IngestFaults.ingestReceivedRevision (fun _ => none) plainDeps 4 receivedEdit importedHome).1 =
      .answered (.stored (receivedEdit.received plainDeps 4)) ∧
    AllOrNothing plainDeps receivedEdit importedHome
      (IngestFaults.ingestReceivedRevision (fun _ => none) plainDeps 4 receivedEdit importedHome) := by
  refine ⟨rfl, (allOrNothing_iff fun x p hp => ?_).mpr ?_⟩
  · cases hp
  · rintro ⟨-, -, ⟨i, -, hfails⟩ | ⟨other, hother, -⟩⟩
    · exact hfails rfl
    · cases (show none = some other from hother)

/-- The disk is full by the time of the edge: the call throws, the row stays without its parent,
and to the next call the revision is present. -/
theorem edge_refused :
    let faults : IngestFaults := fun a => if a = .insertEdge 0 then some (.sql "full") else none
    ∃ t, faults.ingestReceivedRevision plainDeps 4 receivedEdit importedHome =
        (.saveFailed (.sql "full"), t) ∧
      ¬ AllOrNothing plainDeps receivedEdit importedHome
        (faults.ingestReceivedRevision plainDeps 4 receivedEdit importedHome) ∧
      t.tables.hasRevision ⟨"h2"⟩ = true ∧ t.tables.parentsOf ⟨"h2"⟩ = [] ∧
      (IngestFaults.ingestReceivedRevision (fun _ => none) plainDeps 5 receivedEdit t).1 =
        .answered (.alreadyPresent ⟨"h2"⟩) := by
  intro faults
  refine ⟨_, rfl, fun h => ?_, rfl, rfl, rfl⟩
  have hsame := congrArg (fun t : Tables => t.hasRevision ⟨"h2"⟩) (show _ = importedHome.tables from h)
  exact Bool.false_ne_true hsame.symm

/-! ## Where nothing fails -/

def noFaults : IngestFaults := fun _ => none

theorem firstMissing_noFaults (k : Nat) (parentIds : List RevisionId) :
    noFaults.firstMissing t k parentIds = .ok (parentIds.find? fun p => !t.hasRevision p) := by
  induction parentIds generalizing k with
  | nil => rfl
  | cons parentId rest ih =>
    rw [firstMissing, (access_eq_ok (u := ())).mpr rfl, List.find?_cons]
    cases t.hasRevision parentId with
    | true => exact ih (k + 1)
    | false => rfl

theorem checkParents_noFaults (k : Nat) (parentIds : List RevisionId) :
    noFaults.checkParents t revisionId k parentIds = t.checkParents revisionId parentIds := by
  induction parentIds generalizing k with
  | nil => rfl
  | cons parentId rest ih =>
    rw [checkParents, (access_eq_ok (u := ())).mpr rfl, Tables.checkParents, Tables.checkParents,
      Tables.checkParents]
    cases t.hasRevision parentId with
    | true => exact ih (k + 1)
    | false => rfl

theorem saveRevision_noFaults (revision : Revision) (t : Tables) :
    noFaults.saveRevision revision t =
      match t.saveRevision revision with
      | .ok u => (.ok (), u)
      | .error error => (.error error, t) := by
  unfold saveRevision Tables.saveRevision
  rw [checkParents_noFaults]
  cases t.checkParents revision.id revision.parentIds with
  | error e => rfl
  | ok _ =>
    rw [(access_eq_ok (u := ())).mpr rfl]
    cases hrow : t.insertRevision revision.row with
    | error e => rfl
    | ok u => exact insertParents_of_none fun _ _ => rfl

section Calls

variable {α : Type} {r : Except Failure α} {u : Store}

/-- An uninterrupted call of the engine. -/
abbrev Calls (p : Async Store (EngineEvent Unit) Failure α) (s : Store) (r : Except Failure α)
    (u : Store) : Prop := Interleaved (· = ·) p s r u

theorem calls_firstMissing {parentIds : List RevisionId}
    {k : Option RevisionId → Async Store (EngineEvent Unit) Failure α}
    (h : Calls (k (parentIds.find? fun p => !s.tables.hasRevision p)) s r u) :
    Calls (SyncEngine.firstMissing parentIds >>= k) s r u := by
  induction parentIds with
  | nil => exact h
  | cons parentId rest ih =>
    refine .act (.await rfl rfl ?_)
    rw [List.find?_cons] at h
    change Calls ((if s.tables.hasRevision parentId then _ else _) >>= k) s r u
    cases hhas : s.tables.hasRevision parentId with
    | true =>
      rw [hhas] at h
      exact ih h
    | false =>
      rw [hhas] at h
      exact h

theorem calls_saveRevision {revision : Revision} {k : Unit → Async Store (EngineEvent Unit) Failure α}
    (hok : ∀ tables, s.tables.saveRevision revision = .ok tables →
      Calls (k ()) (s.setTables tables) r u)
    (herror : ∀ e, s.tables.saveRevision revision = .error e → r = .error e ∧ u = s) :
    Calls (SyncEngine.saveRevision revision >>= k) s r u := by
  rw [SyncEngine.saveRevision, execute, act_bind]
  refine .act ?_
  cases hsave : s.tables.saveRevision revision with
  | ok tables =>
    dsimp only
    exact .await rfl rfl (hok tables hsave)
  | error e =>
    obtain ⟨rfl, rfl⟩ := herror e hsave
    dsimp only
    exact .await rfl rfl (.fail ..)

/-- Where nothing fails it is the call that the engine makes. -/
theorem calls_ingestReceivedRevision (deps : EngineDeps) (now : Nat) (input : IngestInput)
    (s : Store) :
    Calls (SyncEngine.ingestReceivedRevision deps now input) s
      (noFaults.ingestReceivedRevision deps now input s).1.toExcept
      (noFaults.ingestReceivedRevision deps now input s).2 := by
  rw [ingestReceivedRevision, (access_eq_ok (u := ())).mpr rfl, firstMissing_noFaults]
  refine .act (.await rfl rfl ?_)
  change Calls (if s.tables.hasRevision input.revisionId = true then _ else _) s _ _
  cases s.tables.hasRevision input.revisionId with
  | true => exact .done ..
  | false =>
    rw [if_neg Bool.false_ne_true]
    dsimp only
    rw [if_neg Bool.false_ne_true]
    by_cases hhash : deps.sha256 input.bytes = input.declaredHash
    · rw [if_neg (not_not_intro hhash), if_neg (not_not_intro hhash)]
      refine calls_firstMissing ?_
      cases input.declaredParentIds.find? fun p => !s.tables.hasRevision p with
      | some parentId => exact .done ..
      | none =>
        refine .act (.await rfl rfl ?_)
        rw [(access_eq_ok (u := ())).mpr rfl]
        dsimp only
        cases receivedRevision ⟨input.revisionId, input.vaultId, deps.sha256 input.bytes,
            input.bytes.length, now, input.message⟩ input.declaredParentIds input.fromDeviceId with
        | error e => exact .fail ..
        | ok revision =>
          dsimp only
          rw [saveRevision_noFaults]
          refine calls_saveRevision (fun tables hsave => ?_) fun e hsave => ?_
          · rw [show Tables.saveRevision revision (s.putBlob deps.sha256 input.bytes).tables =
              .ok tables from hsave]
            exact .done ..
          · rw [show Tables.saveRevision revision (s.putBlob deps.sha256 input.bytes).tables =
              .error e from hsave]
            exact ⟨rfl, rfl⟩
    · rw [if_pos hhash, if_pos hhash]
      exact .done ..

end Calls

end IngestFaults

end PassVault
