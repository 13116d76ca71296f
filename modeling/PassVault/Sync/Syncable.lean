import PassVault.Sync.Session
import PassVault.Sync.StoredHistory

/-!
# What is stored can be synced

The parser of a peer bounds ids, names, sizes and counts; the operations of the engine do not.
As long as the calls stay within the bounds, whatever a session builds from the store is accepted
on the other side.
-/

namespace PassVault

open Async

/-- The parser's bounds on a stored revision. -/
structure RevisionRow.Bounded (row : RevisionRow) : Prop where
  id : isStr row.id.value = true
  vaultId : isStr row.vaultId.value = true
  hash : hex64 row.hash = true
  sizeBytes : row.sizeBytes ≤ Limits.maxRevisionBytes
  message : row.message.all isStr = true

/-- The parser's bounds on everything stored, for a session with chunks of `chunkBytes`. -/
structure Store.Bounded (chunkBytes : Nat) (s : Store) : Prop where
  vaults : ∀ id, s.tables.vaults.has id = true → isStr id.value = true
  rows : ∀ row ∈ s.tables.revisions.rows, row.Bounded
  parents : ∀ id, (s.tables.parentsOf id).length ≤ Limits.maxParentsPerRevision
  counts : ∀ vaultId, (s.tables.rowsOf vaultId).length ≤ Limits.maxHistoryNodes
  blobs : ∀ hash bytes, s.getBlob hash = some bytes →
    bytes.length ≤ Limits.maxChunks * chunkBytes

/-- The messages a session on the vault builds from the store: its history summary, what it wants
of a summary it has read and validated, and the header of a revision it serves. -/
inductive Store.Builds (chunkBytes : Nat) (s : Store) (vaultId : VaultId) : Message → Prop where
  | historySummary : s.Builds chunkBytes vaultId
      (.historySummary vaultId (s.tables.historySummary vaultId))
  | wantNothing : s.Builds chunkBytes vaultId (.wantRevisions vaultId [])
  | wantRevisions {remoteId : VaultId} {remote : List HistorySummaryEntry}
      {remoteHead : RevisionId} {wanted : List RevisionId}
      (hremote : parseMessage (.historySummary remoteId remote) =
        .ok (.historySummary remoteId remote))
      (hvalid : validateRemoteGraph (summaryNodes remote) = .ok ())
      (hwanted : missingRevisions (buildGraph (summaryNodes remote)) remoteHead
        (fun id => id ∈ (s.tables.historySummary vaultId).map (·.revisionId)) = .ok wanted) :
      s.Builds chunkBytes vaultId (.wantRevisions vaultId wanted)
  | revisionHeader {revisionId : RevisionId} {revision : Revision} {bytes : Bytes}
      {transferSeq totalChunks : Nat}
      (hrevision : s.tables.getRevision revisionId = some revision)
      (hbytes : s.getBlob revision.hash = some bytes)
      (hchunks : chunkCountFor bytes.length chunkBytes = .ok totalChunks) :
      s.Builds chunkBytes vaultId
        (.revisionHeader (SyncSession.headerFor revision transferSeq totalChunks))

/-- The peer's parser accepts what a session builds from the store, whatever vault it is on. -/
def Store.Syncable (chunkBytes : Nat) (s : Store) : Prop :=
  ∀ vaultId, s.tables.vaults.has vaultId = true →
    ∀ message, s.Builds chunkBytes vaultId message → parseMessage message = .ok message

/-! ## Parsing what is within the bounds -/

theorem forM_eq_ok {α : Type} {f : α → Except Failure Unit} {l : List α} {u : Unit} :
    l.forM f = .ok u ↔ ∀ a ∈ l, f a = .ok () := by
  induction l with
  | nil => simp [List.forM, pure, Except.pure]
  | cons a rest ih =>
    simp only [List.forM, bind_eq_ok, ih, List.forall_mem_cons]
    constructor
    · rintro ⟨_, ha, hrest⟩
      exact ⟨ha, hrest⟩
    · rintro ⟨ha, hrest⟩
      exact ⟨_, ha, hrest⟩

/-- The bounds of an entry of a history summary. -/
theorem parseSummaryEntry_ok {entry : HistorySummaryEntry} {u : Unit} :
    parseSummaryEntry entry = .ok u ↔
      (isStr entry.revisionId.value = true ∧ hex64 entry.hash = true) ∧
        entry.sizeBytes ≤ Limits.maxRevisionBytes ∧
        entry.parentIds.length ≤ Limits.maxParentsPerRevision ∧
        ∀ id ∈ entry.parentIds, isStr id.value = true := by
  simp only [parseSummaryEntry, bind_eq_ok, require_eq_ok, exists_and_left, exists_const,
    Bool.and_eq_true, decide_eq_true_eq, List.all_eq_true]

theorem parseSummaryEntry_large {entry : HistorySummaryEntry}
    (hid : (isStr entry.revisionId.value && hex64 entry.hash) = true)
    (hsize : Limits.maxRevisionBytes < entry.sizeBytes) :
    parseSummaryEntry entry =
      .error (malformed "history-summary entry has an invalid sizeBytes") := by
  rw [parseSummaryEntry, hid, decide_eq_false (Nat.not_le.mpr hsize)]
  rfl

theorem parseHistorySummary_ok {vaultId : VaultId} {revisions : List HistorySummaryEntry} :
    parseMessage (.historySummary vaultId revisions) = .ok (.historySummary vaultId revisions) ↔
      isStr vaultId.value = true ∧ revisions.length ≤ Limits.maxHistoryNodes ∧
        ∀ entry ∈ revisions, parseSummaryEntry entry = .ok () := by
  constructor
  · intro h
    obtain ⟨_, hvault, h⟩ := bind_eq_ok.mp h
    obtain ⟨_, hlength, h⟩ := bind_eq_ok.mp h
    obtain ⟨_, hentries, -⟩ := bind_eq_ok.mp h
    exact ⟨require_eq_ok.mp hvault, by simpa using require_eq_ok.mp hlength,
      forM_eq_ok.mp hentries⟩
  · rintro ⟨hvault, hlength, hentries⟩
    have hparsed : revisions.forM parseSummaryEntry = .ok () := forM_eq_ok.mpr hentries
    rw [parseMessage, hvault, decide_eq_true hlength, hparsed]
    rfl

theorem parseWantRevisions_ok {vaultId : VaultId} {revisionIds : List RevisionId}
    (hvault : isStr vaultId.value = true)
    (hlength : revisionIds.length ≤ Limits.maxWantedRevisions)
    (hids : ∀ id ∈ revisionIds, isStr id.value = true) :
    parseMessage (.wantRevisions vaultId revisionIds) = .ok (.wantRevisions vaultId revisionIds) := by
  have hall : (revisionIds.all fun id => isStr id.value) = true := List.all_eq_true.mpr hids
  rw [parseMessage, hvault, decide_eq_true hlength, hall]
  rfl

theorem parseRevisionHeader_ok {header : RevisionHeader} {message : Message} :
    parseMessage (.revisionHeader header) = .ok message ↔
      message = .revisionHeader header ∧
      ((isStr header.vaultId.value = true ∧ isStr header.revisionId.value = true) ∧
        hex64 header.hash = true) ∧
      header.sizeBytes ≤ Limits.maxRevisionBytes ∧ header.totalChunks ≤ Limits.maxChunks ∧
      header.parentIds.length ≤ Limits.maxParentsPerRevision ∧
      (∀ id ∈ header.parentIds, isStr id.value = true) ∧ header.message.all isStr = true := by
  simp only [parseMessage, parseHeader, bind_eq_ok, require_eq_ok, exists_and_left, exists_const,
    Bool.and_eq_true, decide_eq_true_eq, List.all_eq_true, pure, Except.pure, Except.ok.injEq]
  constructor
  · rintro ⟨hbounds, rfl⟩
    exact ⟨rfl, hbounds⟩
  · rintro ⟨rfl, hbounds⟩
    exact ⟨hbounds, rfl⟩

theorem chunkCountFor_le {sizeBytes chunkBytes totalChunks : Nat}
    (h : chunkCountFor sizeBytes chunkBytes = .ok totalChunks)
    (hsize : sizeBytes ≤ Limits.maxChunks * chunkBytes) : totalChunks ≤ Limits.maxChunks := by
  obtain ⟨_, hpos, h⟩ := bind_eq_ok.mp h
  cases h
  have hpos : 0 < chunkBytes := by simpa using assert_eq_ok.mp hpos
  refine max_le (by decide) (Nat.lt_succ_iff.mp ?_)
  rw [Nat.div_lt_iff_lt_mul hpos, Nat.succ_mul]
  omega

namespace Store.Bounded

variable {chunkBytes : Nat} {s : Store}

/-- What is stored of a revision. -/
theorem revision (h : s.Bounded chunkBytes)
    (hclosed : ∀ x p, s.tables.StoredParent x p → s.tables.hasRevision p = true)
    {row : RevisionRow} (hrow : row ∈ s.tables.revisions.rows) :
    row.Bounded ∧ (s.tables.parentsOf row.id).length ≤ Limits.maxParentsPerRevision ∧
      ∀ id ∈ s.tables.parentsOf row.id, isStr id.value = true := by
  refine ⟨h.rows row hrow, h.parents row.id, fun id hid => ?_⟩
  obtain ⟨parent, hparent⟩ := Table.has_iff.mp (hclosed _ _ (Tables.mem_parentsOf.mp hid))
  have hkey : parent.id = id := Table.key_of_find hparent
  exact hkey ▸ (h.rows parent (Table.mem_of_find hparent)).id

theorem historySummary (h : s.Bounded chunkBytes)
    (hclosed : ∀ x p, s.tables.StoredParent x p → s.tables.hasRevision p = true)
    {vaultId : VaultId} (hvault : isStr vaultId.value = true) :
    parseMessage (.historySummary vaultId (s.tables.historySummary vaultId)) =
      .ok (.historySummary vaultId (s.tables.historySummary vaultId)) := by
  refine parseHistorySummary_ok.mpr ⟨hvault, ?_, fun entry hentry => ?_⟩
  · simpa [Tables.historySummary, Tables.listRevisions] using h.counts vaultId
  · obtain ⟨revision, hrevision, rfl⟩ := List.mem_map.mp hentry
    obtain ⟨row, hmem, rfl⟩ := List.mem_map.mp hrevision
    have hrow := (List.mem_filter.mp (List.mem_mergeSort.mp hmem)).1
    obtain ⟨hrow, hlength, hparents⟩ := h.revision hclosed hrow
    exact parseSummaryEntry_ok.mpr ⟨⟨hrow.id, hrow.hash⟩, hrow.sizeBytes, hlength, hparents⟩

/-- What is wanted is in the summary that was read. -/
theorem wantRevisions {vaultId remoteId : VaultId} (hvault : isStr vaultId.value = true)
    {remote : List HistorySummaryEntry} {remoteHead : RevisionId} {wanted : List RevisionId}
    {held : RevisionId → Bool}
    (hremote : parseMessage (.historySummary remoteId remote) =
      .ok (.historySummary remoteId remote))
    (hwanted : missingRevisions (buildGraph (summaryNodes remote)) remoteHead held = .ok wanted) :
    parseMessage (.wantRevisions vaultId wanted) = .ok (.wantRevisions vaultId wanted) := by
  obtain ⟨-, hlength, hentries⟩ := parseHistorySummary_ok.mp hremote
  have hresult := missingRevisions_ok hwanted
  have hmem : ∀ id ∈ wanted, id ∈ remote.map (·.revisionId) := by
    intro id hid
    have hhas := ((hresult.mem_iff id).mp hid).2.2
    rw [RevisionGraph.has, get_buildGraph] at hhas
    obtain ⟨node, hnode⟩ := Option.isSome_iff_exists.mp hhas
    obtain ⟨entry, hentry, rfl⟩ :=
      List.mem_map.mp (List.mem_reverse.mp (List.mem_of_find?_eq_some hnode))
    have hkey : entry.revisionId = id := by simpa using List.find?_some hnode
    exact List.mem_map.mpr ⟨entry, hentry, hkey⟩
  refine parseWantRevisions_ok hvault ?_ fun id hid => ?_
  · have hle := (hresult.nodup.subperm hmem).length_le
    rw [List.length_map] at hle
    exact hle.trans hlength
  · obtain ⟨entry, hentry, rfl⟩ := List.mem_map.mp (hmem id hid)
    exact (parseSummaryEntry_ok.mp (hentries entry hentry)).1.1

theorem revisionHeader (h : s.Bounded chunkBytes)
    (hclosed : ∀ x p, s.tables.StoredParent x p → s.tables.hasRevision p = true)
    {revisionId : RevisionId} {revision : Revision} {bytes : Bytes} {transferSeq totalChunks : Nat}
    (hrevision : s.tables.getRevision revisionId = some revision)
    (hbytes : s.getBlob revision.hash = some bytes)
    (hchunks : chunkCountFor bytes.length chunkBytes = .ok totalChunks) :
    parseMessage (.revisionHeader (SyncSession.headerFor revision transferSeq totalChunks)) =
      .ok (.revisionHeader (SyncSession.headerFor revision transferSeq totalChunks)) := by
  obtain ⟨row, hrow, rfl⟩ := Tables.getRevision_eq_some.mp hrevision
  have hkey : row.id = revisionId := Table.key_of_find hrow
  obtain ⟨hbounded, hlength, hparents⟩ := h.revision hclosed (Table.mem_of_find hrow)
  have hcount := chunkCountFor_le hchunks (h.blobs _ _ hbytes)
  rw [hkey] at hlength hparents
  exact parseRevisionHeader_ok.mpr ⟨rfl, ⟨⟨hbounded.vaultId, hbounded.id⟩, hbounded.hash⟩,
    hbounded.sizeBytes, hcount, hlength, hparents, hbounded.message⟩

/-- A closed history within the bounds can be synced. -/
theorem syncable (h : s.Bounded chunkBytes)
    (hclosed : ∀ x p, s.tables.StoredParent x p → s.tables.hasRevision p = true) :
    s.Syncable chunkBytes := by
  intro vaultId hvault message hbuilds
  have hvault := h.vaults vaultId hvault
  cases hbuilds with
  | historySummary => exact h.historySummary hclosed hvault
  | wantNothing => exact parseWantRevisions_ok hvault (by simp) (by simp)
  | wantRevisions hremote _ hwanted => exact wantRevisions hvault hremote hwanted
  | revisionHeader hrevision hbytes hchunks =>
    exact h.revisionHeader hclosed hrevision hbytes hchunks

end Store.Bounded

/-! ## Calls within the bounds -/

/-- The bounds on a revision before it is stored. Its vault has been stored, and so have its
parents. -/
structure Revision.Bounded (revision : Revision) : Prop where
  id : isStr revision.id.value = true
  hash : hex64 revision.hash = true
  sizeBytes : revision.sizeBytes ≤ Limits.maxRevisionBytes
  message : revision.message.all isStr = true
  parentIds : revision.parentIds.length ≤ Limits.maxParentsPerRevision

theorem Tables.length_parentsOf_insertParents (t : Tables) (id : RevisionId)
    (parentIds : List RevisionId) (x : RevisionId) :
    ((t.insertParents id parentIds).parentsOf x).length ≤
      (t.parentsOf x).length + if x = id then parentIds.length else 0 := by
  simp only [parentsOf, insertParents, List.length_map]
  generalize t.revisionParents = rows
  induction parentIds generalizing rows with
  | nil => simp
  | cons parentId rest ih =>
    have hinsert : ((rows.insert ⟨id, parentId⟩).rows.filter (·.revisionId = x)).length ≤
        (rows.rows.filter (·.revisionId = x)).length + if x = id then 1 else 0 := by
      rw [Table.rows_insert]
      by_cases hx : x = id
      · subst hx
        split <;> simp
      · have hne : id ≠ x := fun h => hx h.symm
        split <;> simp [hne]
    rw [List.foldl_cons, List.length_cons]
    refine (ih (rows.insert ⟨id, parentId⟩)).trans ?_
    by_cases hx : x = id
    · rw [if_pos hx] at hinsert
      rw [if_pos hx, if_pos hx]
      omega
    · rw [if_neg hx] at hinsert
      rw [if_neg hx, if_neg hx]
      omega

namespace Store.Bounded

variable {chunkBytes : Nat} {s : Store}

theorem empty (chunkBytes : Nat) : Store.empty.Bounded chunkBytes := by
  refine ⟨?_, ?_, ?_, ?_, ?_⟩ <;>
    simp [Store.empty, Tables.empty, Table.empty, Table.has, Table.find, Tables.parentsOf,
      Tables.rowsOf, Store.getBlob]

theorem saveVault (h : s.Bounded chunkBytes) {vault : Vault}
    (hvault : isStr vault.id.value = true) :
    (s.setTables (s.tables.saveVault vault)).Bounded chunkBytes := by
  refine ⟨fun id hid => ?_, h.rows, h.parents, h.counts, h.blobs⟩
  obtain ⟨row, hrow⟩ := Table.has_iff.mp hid
  rw [Store.setTables, Tables.saveVault, Table.find_upsert] at hrow
  split at hrow
  · rename_i hkey
    exact hkey ▸ hvault
  · exact h.vaults id (Table.has_iff.mpr ⟨row, hrow⟩)

theorem putBlob (h : s.Bounded chunkBytes) (sha256 : Bytes → Sha256Hex) {bytes : Bytes}
    (hbytes : bytes.length ≤ Limits.maxChunks * chunkBytes) :
    (s.putBlob sha256 bytes).Bounded chunkBytes := by
  refine ⟨h.vaults, h.rows, h.parents, h.counts, fun hash found hfound => ?_⟩
  obtain ⟨⟨key, found'⟩, hrow, rfl⟩ := Option.map_eq_some_iff.mp hfound
  rcases Table.mem_insert (Table.mem_of_find hrow) with hmem | ⟨heq, -⟩
  · have hold : s.getBlob key = some found' :=
      Option.map_eq_some_iff.mpr ⟨_, Table.find_of_mem hmem, rfl⟩
    exact h.blobs key found' hold
  · cases heq
    exact hbytes

theorem saveRevision (h : s.Bounded chunkBytes)
    (hclosed : ∀ x p, s.tables.StoredParent x p → s.tables.hasRevision x = true)
    {revision : Revision} (hnew : s.tables.hasRevision revision.id = false)
    (hrevision : revision.Bounded)
    (hcount : (s.tables.rowsOf revision.vaultId).length < Limits.maxHistoryNodes) {tables : Tables}
    (hsave : Tables.saveRevision revision s.tables = .ok tables) :
    (s.setTables tables).Bounded chunkBytes := by
  obtain ⟨-, hvault, rfl⟩ := Tables.saveRevision_ok hsave
  have hvault : s.tables.vaults.has revision.vaultId = true :=
    hvault.resolve_left fun hhas => by simp [Tables.hasRevision, hhas] at hnew
  have hnone : s.tables.revisions.find revision.id = none := by
    simpa [Tables.hasRevision, Table.has] using hnew
  have hrows : (s.tables.revisions.insert revision.row).rows =
      s.tables.revisions.rows ++ [revision.row] := by
    rw [Table.rows_insert, Revision.row_id, if_pos hnone]
  refine ⟨h.vaults, fun row hrow => ?_, fun id => ?_, fun vaultId => ?_, h.blobs⟩
  · rcases Table.mem_insert hrow with hrow | ⟨rfl, -⟩
    · exact h.rows row hrow
    · exact ⟨hrevision.id, h.vaults _ hvault, hrevision.hash, hrevision.sizeBytes,
        hrevision.message⟩
  · refine (Tables.length_parentsOf_insertParents _ _ _ _).trans ?_
    by_cases hid : id = revision.id
    · -- A revision that is not stored has no edges yet.
      have hnil : s.tables.parentsOf id = [] := by
        apply List.eq_nil_iff_forall_not_mem.mpr
        intro p hp
        have hhas := hclosed _ _ (Tables.mem_parentsOf.mp hp)
        rw [hid, hnew] at hhas
        cases hhas
      have hzero : (s.tables.parentsOf id).length = 0 := by rw [hnil, List.length_nil]
      show (s.tables.parentsOf id).length + _ ≤ _
      rw [hzero, if_pos hid, Nat.zero_add]
      exact hrevision.parentIds
    · rw [if_neg hid]
      exact h.parents id
  · have hlength : ((s.tables.revisions.insert revision.row).rows.filter
        (·.vaultId = vaultId)).length ≤ Limits.maxHistoryNodes := by
      rw [hrows, List.filter_append, List.length_append]
      by_cases hid : revision.vaultId = vaultId
      · have hroom : (s.tables.revisions.rows.filter (·.vaultId = vaultId)).length <
            Limits.maxHistoryNodes := hid ▸ hcount
        simp only [List.filter_singleton, Revision.row_vaultId, hid, decide_true, cond_true,
          List.length_singleton]
        omega
      · have hold : (s.tables.revisions.rows.filter (·.vaultId = vaultId)).length ≤
            Limits.maxHistoryNodes := h.counts vaultId
        simpa [List.filter_singleton, hid] using hold
    exact hlength

end Store.Bounded

namespace SyncEngine

variable (deps : EngineDeps) (chunkBytes : Nat)

/-- Operations that nothing interrupts keep what is stored within the bounds. -/
def bounds : Contract Store (EngineEvent Unit) where
  inv s := s.WellFormed deps.sha256 ∧ s.Bounded chunkBytes
  rely s t := s = t
  guar _ _ _ := True
  given s t := s.Grows t ∧ t.WellFormed deps.sha256
  cond _ _ := True
  prop := FreshIds
  prompt _ := False

/-- New revisions within the bounds, in a vault with room for one more. -/
def boundsAdmission : Admission where
  vault vaultId := isStr vaultId.value = true
  revision revision s := s.tables.hasRevision revision.id = false ∧ revision.Bounded ∧
    (s.tables.rowsOf revision.vaultId).length < Limits.maxHistoryNodes
  blob bytes := bytes.length ≤ Limits.maxChunks * chunkBytes

theorem bounds_storeContract : StoreContract (bounds deps chunkBytes) where
  idle _ _ := trivial
  quiet := by
    intro f hf s hinv hgiven
    have hbounded : (changeStore f [] s).1.Bounded chunkBytes := by
      cases hf <;> exact ⟨hinv.2.vaults, hinv.2.rows, hinv.2.parents, hinv.2.counts, hinv.2.blobs⟩
    exact ⟨trivial, hgiven.2, hbounded⟩

theorem bounds_uninterrupted :
    Uninterrupted deps (bounds deps chunkBytes) (boundsAdmission chunkBytes) where
  toStoreContract := bounds_storeContract deps chunkBytes
  alone _ _ := Iff.rfl
  every _ _ := trivial
  wellFormed _ h := h.1
  given _ _ hgrows hwf := ⟨hgrows, hwf⟩
  fresh _ _ h := h
  eager _ h := h
  grows _ _ h := h.1
  same _ s t hst h := by
    refine ⟨hst.not_stored h.1, h.2.1, ?_⟩
    rw [Tables.rowsOf, hst]
    exact h.2.2
  stored _ vaultId hinv hhas := hinv.2.vaults vaultId hhas
  prop _ _ h revision hsaved _ := (h revision hsaved).1
  report _ _ := trivial
  saveVault _ _ _ hinv hvault hgiven := ⟨trivial, hgiven.2, hinv.2.saveVault hvault⟩
  appendHeadEvent s headEvent tables hinv hok hgiven := by
    rw [Tables.appendHeadEvent] at hok
    split at hok <;> cases hok
    exact ⟨trivial, hgiven.2, hinv.2.vaults, hinv.2.rows, hinv.2.parents, hinv.2.counts,
      hinv.2.blobs⟩
  saveRevision _ _ _ _ hinv hrevision hsave hgiven :=
    ⟨trivial, hgiven.2, hinv.2.saveRevision (fun x p hp => (hinv.1.closed x p hp).1) hrevision.1
      hrevision.2.1 hrevision.2.2 hsave⟩
  putBlob _ _ hinv hblob hgiven := ⟨trivial, hgiven.2, hinv.2.putBlob deps.sha256 hblob⟩

end SyncEngine

namespace Operation

open SyncEngine

/-- What a call may store as a new revision of the vault. -/
structure Fits (chunkBytes : Nat) (s : Store) (vaultId : VaultId) (revisionId : RevisionId)
    (bytes : Bytes) (message : Option String) (parentIds : List RevisionId) : Prop where
  id : isStr revisionId.value = true
  size : bytes.length ≤ Limits.maxRevisionBytes
  chunks : bytes.length ≤ Limits.maxChunks * chunkBytes
  message : message.all isStr = true
  parentIds : parentIds.length ≤ Limits.maxParentsPerRevision
  room : (s.tables.rowsOf vaultId).length < Limits.maxHistoryNodes

/-- The call stays within the bounds: the vault it creates and the revision it stores, if it stores
one. -/
def WithinBounds (deps : EngineDeps) (chunkBytes : Nat) (operation : Operation) (s : Store) :
    Prop :=
  match operation with
  | importVault vaultId stamp name bytes _ => isStr vaultId.value = true ∧
    Fits chunkBytes s vaultId stamp.revisionId bytes (some name) []
  | recordLocalChange stamp vaultId bytes => ∀ vault, s.tables.getVault vaultId = some vault →
    ¬ HeadHas s.tables vault (deps.sha256 bytes) →
      Fits chunkBytes s vaultId stamp.revisionId bytes none vault.headRevisionId.toList
  | ingestReceivedRevision _ input => s.tables.hasRevision input.revisionId = false →
    deps.sha256 input.bytes = input.declaredHash →
    (∀ id ∈ input.declaredParentIds, s.tables.hasRevision id = true) →
      Fits chunkBytes s input.vaultId input.revisionId input.bytes input.message
        input.declaredParentIds
  | merge stamp vaultId baseRevisionId incomingRevisionIds message => ∀ bytes,
    mergedBytes deps s vaultId baseRevisionId incomingRevisionIds = some bytes →
      Fits chunkBytes s vaultId stamp.revisionId bytes message
        (baseRevisionId :: incomingRevisionIds)
  | adoptVault _ vaultId _ => s.tables.getVault vaultId = none → isStr vaultId.value = true
  | promote .. | fastForward .. | bindVaultToFile .. => True

variable {deps : EngineDeps} {chunkBytes : Nat}

/-- Such a revision is admitted, whoever authored it. -/
theorem Fits.admitted (hsha : ∀ bytes, hex64 (deps.sha256 bytes) = true) {s : Store}
    {vaultId : VaultId} {revisionId : RevisionId} {bytes : Bytes} {message message' : Option String}
    {parentIds : List RevisionId}
    (h : Fits chunkBytes s vaultId revisionId bytes message parentIds)
    (hmessage : message.all isStr = true → message'.all isStr = true)
    (hnew : s.tables.hasRevision revisionId = false) (createdAt : Nat)
    (operation : RevisionOperation) (originDeviceId : Option DeviceId) :
    (boundsAdmission chunkBytes).blob bytes ∧
      (boundsAdmission chunkBytes).revision (RevisionSeed.base
        ⟨revisionId, vaultId, deps.sha256 bytes, bytes.length, createdAt, message'⟩
        parentIds operation originDeviceId) s :=
  ⟨h.chunks, hnew, ⟨h.id, hsha bytes, h.size, hmessage h.message, h.parentIds⟩, h.room⟩

/-- The message of a merge that is given none. -/
theorem isStr_mergeMessage {count : Nat} (h : count ≤ Limits.maxParentsPerRevision) :
    isStr ("Merged " ++ toString count ++ " revisions") = true := by
  have hall : ∀ n, n ≤ Limits.maxParentsPerRevision →
      isStr ("Merged " ++ toString n ++ " revisions") = true := by decide +kernel
  exact hall count h

theorem program_bounds (hsha : ∀ bytes, hex64 (deps.sha256 bytes) = true) (operation : Operation)
    {s : Store} (hinv : (bounds deps chunkBytes).inv s) (hfresh : operation.Fresh s)
    (hwithin : operation.WithinBounds deps chunkBytes s) :
    KeepsAlone (bounds deps chunkBytes) (operation.program deps) s := by
  have hc := bounds_uninterrupted deps chunkBytes
  cases operation with
  | importVault vaultId stamp name bytes kdbxPath =>
    obtain ⟨hblob, hrevision⟩ := hwithin.2.admitted hsha id (hfresh _ rfl) stamp.now .imported
      (some deps.deviceId)
    exact Safe.bind (importVault_alone hc hinv _ _ _ _ _ hwithin.1 hblob hrevision)
  | recordLocalChange stamp vaultId bytes =>
    refine Safe.bind (recordLocalChange_alone hc hinv _ _ _ fun vault hget hchanged => ?_)
    exact (hwithin vault hget hchanged).admitted hsha id (hfresh _ rfl) _ _ _
  | ingestReceivedRevision now input =>
    refine Safe.bind (ingestReceivedRevision_alone hc hinv _ _ fun hnew hhash hparents => ?_)
    exact (hwithin hnew hhash hparents).admitted hsha id hnew _ _ _
  | merge stamp vaultId baseRevisionId incomingRevisionIds message =>
    refine Safe.bind (merge_alone hc hinv _ _ _ _ _ fun bytes hmerged => ?_)
    have hfits := hwithin bytes hmerged
    refine hfits.admitted hsha (fun hmessage => ?_) (hfresh _ rfl) _ _ _
    cases message with
    | some message => exact hmessage
    | none => exact isStr_mergeMessage hfits.parentIds
  | promote now vaultId revisionId => exact Safe.bind (promote_alone hc hinv _ _ _)
  | fastForward now vaultId revisionId => exact Safe.bind (fastForward_alone hc hinv _ _ _)
  | adoptVault now vaultId name => exact Safe.bind (adoptVault_alone hc hinv _ _ _ hwithin)
  | bindVaultToFile vaultId kdbxPath => exact Safe.bind (bindVaultToFile_alone hc hinv _ _)

end Operation

/-! ## Imports -/

/-- A stand-in digest of 64 digits: the length of the bytes. -/
def lengthHash (bytes : Bytes) : Sha256Hex :=
  ⟨String.ofList (List.replicate 62 '0' ++
    [Char.ofNat (48 + bytes.length / 10 % 10), Char.ofNat (48 + bytes.length % 10)])⟩

def lengthDeps : EngineDeps := { plainDeps with sha256 := lengthHash }

theorem hex64_lengthHash (bytes : Bytes) : hex64 (lengthHash bytes) = true := by
  have hdigit : ∀ n, n < 10 → (Char.ofNat (48 + n)).isDigit = true := by decide
  have hzero : '0'.isDigit = true := rfl
  simp [hex64, lengthHash, hzero, hdigit _ (Nat.mod_lt (bytes.length / 10) (by decide)),
    hdigit _ (Nat.mod_lt bytes.length (by decide))]

/-- The import of a vault on a device that holds none. -/
def firstImport (name : String) (bytes : Bytes) : Operation :=
  .importVault ⟨"home"⟩ ⟨⟨"h1"⟩, 1⟩ name bytes none

/-- The store after it. -/
def imported (name : String) (bytes : Bytes) : Store :=
  (runAll lengthDeps [firstImport name bytes] .empty).getD .empty

theorem historySummary_imported (name : String) (bytes : Bytes) :
    (imported name bytes).tables.historySummary ⟨"home"⟩ =
      [⟨⟨"h1"⟩, lengthHash bytes, bytes.length, []⟩] := by
  have hrows : (imported name bytes).tables.rowsOf ⟨"home"⟩ = [⟨⟨"h1"⟩, ⟨"home"⟩, lengthHash bytes,
      bytes.length, 1, some ⟨"laptop"⟩, .imported, some name⟩] := rfl
  rw [Tables.historySummary, Tables.listRevisions, hrows, List.mergeSort_singleton]
  rfl

theorem historySummary_large (name : String) {bytes : Bytes}
    (hsize : Limits.maxRevisionBytes < bytes.length) :
    parseMessage (.historySummary ⟨"home"⟩ ((imported name bytes).tables.historySummary ⟨"home"⟩)) =
      .error (malformed "history-summary entry has an invalid sizeBytes") := by
  have hid : (isStr "h1" && hex64 (lengthHash bytes)) = true := by
    rw [hex64_lengthHash]
    rfl
  have hentry : parseSummaryEntry ⟨⟨"h1"⟩, lengthHash bytes, bytes.length, []⟩ =
    .error (malformed "history-summary entry has an invalid sizeBytes") :=
    parseSummaryEntry_large hid hsize
  rw [historySummary_imported, parseMessage, List.forM, hentry]
  rfl

/-- An edit of the vault, and the store after it. -/
def firstEdit : Operation := .recordLocalChange ⟨⟨"h2"⟩, 2⟩ ⟨"home"⟩ [1, 1]

def edited : Store := (firstEdit.run lengthDeps (imported "home.kdbx" [1])).getD .empty

theorem getBlob_imported (name : String) (bytes : Bytes) :
    (imported name bytes).getBlob (lengthHash bytes) = some bytes := by
  have hblobs : (imported name bytes).blobs = (Table.empty _).insert (lengthHash bytes, bytes) :=
    rfl
  rw [Store.getBlob, hblobs, Table.find_insert]
  simp

namespace Runs

variable {deps : EngineDeps} {chunkBytes : Nat}

theorem bounded (hsha : ∀ bytes, hex64 (deps.sha256 bytes) = true) {s t : Store}
    (hruns : Runs deps (Operation.WithinBounds deps chunkBytes) s t)
    (hinv : (SyncEngine.bounds deps chunkBytes).inv s) :
    (SyncEngine.bounds deps chunkBytes).inv t := by
  induction hruns with
  | refl => exact hinv
  | step _ hwithin hfresh hrun ih =>
    have hkeeps := Operation.program_bounds hsha _ ih hfresh hwithin
    exact (Operation.run_alone (SyncEngine.bounds_uninterrupted deps chunkBytes) _ ih hkeeps
      hrun).1

/-- In every run whose calls stay within the parser's bounds, the peer's parser accepts whatever a
session builds from the store. -/
theorem stored_syncable (hsha : ∀ bytes, hex64 (deps.sha256 bytes) = true) {s : Store}
    (hs : Runs deps (Operation.WithinBounds deps chunkBytes) .empty s) : s.Syncable chunkBytes := by
  have hinv := hs.bounded hsha ⟨.empty deps.sha256, .empty chunkBytes⟩
  exact hinv.2.syncable fun x p hp => (hinv.1.closed x p hp).2

theorem stored_syncable_edited :
    edited.tables.hasRevision ⟨"h2"⟩ = true ∧ edited.Syncable 65536 := by
  have himport : Runs lengthDeps (Operation.WithinBounds lengthDeps 65536) .empty
      (imported "home.kdbx" [1]) := by
    have hrun : (firstImport "home.kdbx" [1]).run lengthDeps .empty =
      some (imported "home.kdbx" [1]) := rfl
    refine .step (.refl _) ?_ (fun id _ => rfl) hrun
    exact ⟨rfl, rfl, by decide, by decide, rfl, by decide, by decide⟩
  have hedit : Runs lengthDeps (Operation.WithinBounds lengthDeps 65536) .empty edited := by
    have hrun : firstEdit.run lengthDeps (imported "home.kdbx" [1]) = some edited := rfl
    refine himport.step ?_ (fun id hid => ?_) hrun
    · intro vault hvault _
      cases hvault
      exact ⟨rfl, by decide, by decide, rfl, by decide, by decide⟩
    · cases hid
      rfl
  have hsha : ∀ bytes, hex64 (lengthDeps.sha256 bytes) = true := hex64_lengthHash
  exact ⟨rfl, stored_syncable hsha hedit⟩

/-- A vault of more than 512 MiB is stored, and its history summary is refused from then on; so is
the header of a vault that was imported under an empty name. -/
theorem stored_unsyncable :
    (∃ s, Runs lengthDeps anyCall .empty s ∧ ¬ s.Syncable 65536 ∧
      parseMessage (.historySummary ⟨"home"⟩ (s.tables.historySummary ⟨"home"⟩)) =
        .error (malformed "history-summary entry has an invalid sizeBytes")) ∧
    ∃ s header, Runs lengthDeps anyCall .empty s ∧
      s.Builds 65536 ⟨"home"⟩ (.revisionHeader header) ∧
      parseMessage (.revisionHeader header) =
        .error (malformed "revision-header message must be a bounded string") := by
  have hruns : ∀ name bytes, Runs lengthDeps anyCall .empty (imported name bytes) :=
    fun name bytes => of_runAll [firstImport name bytes] (fun _ _ _ => trivial) rfl
  constructor
  · obtain ⟨bytes, hsize⟩ : ∃ bytes : Bytes, Limits.maxRevisionBytes < bytes.length := by
      refine ⟨List.replicate (Limits.maxRevisionBytes + 1) 0, ?_⟩
      rw [List.length_replicate]
      exact Nat.lt_succ_self _
    have hrefused := historySummary_large "home.kdbx" hsize
    refine ⟨_, hruns _ _, fun hsyncable => ?_, hrefused⟩
    have haccepted := hsyncable ⟨"home"⟩ rfl _ .historySummary
    rw [hrefused] at haccepted
    cases haccepted
  · have hrevision : (imported "" []).tables.getRevision ⟨"h1"⟩ = some ⟨⟨"h1"⟩, ⟨"home"⟩,
        lengthHash [], 0, 1, some ⟨"laptop"⟩, [], .imported, some ""⟩ := rfl
    have hchunks : chunkCountFor ([] : Bytes).length 65536 = .ok 1 := rfl
    have hbuilds : (imported "" []).Builds 65536 ⟨"home"⟩
        (.revisionHeader (SyncSession.headerFor _ 1 1)) :=
      .revisionHeader hrevision (getBlob_imported "" []) hchunks
    exact ⟨_, _, hruns _ _, hbuilds, rfl⟩

end Runs

end PassVault
