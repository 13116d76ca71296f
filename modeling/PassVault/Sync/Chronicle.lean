import Mathlib.Data.Set.Insert
import PassVault.Sync.Node

/-!
# One history

What a revision id stands for is settled where the revision is made: its vault, its bytes, its
message and its parents. A chronicle holds what every id stands for. Devices that keep to it, and
are told by each other only what it holds, never disagree on a revision that several of them store.
-/

namespace PassVault

open Async Relation

/-- What a revision says, wherever it is stored. -/
@[ext] structure Content where
  vaultId : VaultId
  hash : Sha256Hex
  message : Option String
  parents : Set RevisionId

def Revision.content (revision : Revision) : Content :=
  ⟨revision.vaultId, revision.hash, revision.message, {p | p ∈ revision.parentIds}⟩

def RevisionHeader.content (header : RevisionHeader) : Content :=
  ⟨header.vaultId, header.hash, header.message, {p | p ∈ header.parentIds}⟩

/-- What every revision id stands for, and how bytes are hashed. -/
structure Chronicle where
  sha256 : Bytes → Sha256Hex
  entry : RevisionId → Option Content

variable {c : Chronicle}

/-! ## What is stored -/

/-- Every stored revision says what the chronicle says, and so does every edge. -/
structure Tables.KeepsTo (c : Chronicle) (t : Tables) : Prop where
  told : ∀ id revision, t.getRevision id = some revision → c.entry id = some revision.content
  edges : ∀ x p, t.StoredParent x p →
    t.hasRevision p = true ∧ ∃ content, c.entry x = some content ∧ p ∈ content.parents

namespace Tables

variable {t t' : Tables} {revision : Revision}

theorem keepsTo_empty : Tables.empty.KeepsTo c := by
  refine ⟨fun id revision h => ?_, fun x p h => ?_⟩
  · simp [getRevision, Tables.empty, Table.empty, Table.find] at h
  · simp [StoredParent, Tables.empty, Table.empty] at h

theorem KeepsTo.same (h : t.KeepsTo c) (hrevisions : t'.revisions = t.revisions)
    (hparents : t'.revisionParents = t.revisionParents) : t'.KeepsTo c := by
  have hget : ∀ id, t'.getRevision id = t.getRevision id := by
    intro id
    rw [getRevision, getRevision, parentsOf, parentsOf, hrevisions, hparents]
  have hstored : ∀ x p, t'.StoredParent x p ↔ t.StoredParent x p := by
    intro x p
    rw [StoredParent, StoredParent, hparents]
  refine ⟨fun id revision hrevision => h.told id revision (hget id ▸ hrevision), fun x p hp => ?_⟩
  rw [hasRevision, hrevisions]
  exact h.edges x p ((hstored x p).mp hp)

/-- A revision that says what the chronicle says may be saved, known or not. -/
theorem KeepsTo.saveRevision (h : t.KeepsTo c) (htold : c.entry revision.id = some revision.content)
    (hsave : Tables.saveRevision revision t = .ok t') : t'.KeepsTo c := by
  have hgrows := grows_saveRevision hsave
  obtain ⟨hparents, -, rfl⟩ := saveRevision_ok hsave
  have hedge : ∀ p, t.StoredParent revision.id p → p ∈ revision.parentIds := by
    intro p hp
    obtain ⟨-, content, hcontent, hmem⟩ := h.edges _ _ hp
    cases htold.symm.trans hcontent
    exact hmem
  refine ⟨fun id found hfound => ?_, fun x p hp => ?_⟩
  · obtain ⟨row, hrow, rfl⟩ := getRevision_eq_some.mp hfound
    have hrow : (t.revisions.insert revision.row).find id = some row := hrow
    rw [Table.find_insert] at hrow
    by_cases hid : revision.row.id = id
    · rw [if_pos hid] at hrow
      subst hid
      -- What was stored under the id has been told before, and the edges that it takes are its own.
      have hset : {p | p ∈ (({ t with revisions := t.revisions.insert revision.row } : Tables)
          |>.insertParents revision.id revision.parentIds).parentsOf revision.id} =
          {p | p ∈ revision.parentIds} := by
        ext p
        change p ∈ parentsOf _ _ ↔ p ∈ revision.parentIds
        rw [mem_parentsOf, storedParent_insertParents]
        constructor
        · rintro (hold | ⟨-, hnew⟩)
          · exact hedge p hold
          · exact hnew
        · exact fun hnew => .inr ⟨rfl, hnew⟩
      have hcontent : row.vaultId = revision.vaultId ∧ row.hash = revision.hash ∧
          row.message = revision.message := by
        cases hold : t.revisions.find revision.row.id with
        | none =>
          rw [hold] at hrow
          cases hrow
          exact ⟨rfl, rfl, rfl⟩
        | some old =>
          rw [hold] at hrow
          cases hrow
          have hold := h.told _ _ (getRevision_eq_some.mpr ⟨_, hold, rfl⟩)
          have heq := Option.some.inj (htold.symm.trans hold)
          exact ⟨congrArg Content.vaultId heq.symm, congrArg Content.hash heq.symm,
            congrArg Content.message heq.symm⟩
      rw [Revision.row_id, htold]
      refine congrArg some (Content.ext ?_ ?_ ?_ ?_)
      · exact hcontent.1.symm
      · exact hcontent.2.1.symm
      · exact hcontent.2.2.symm
      · exact hset.symm
    · rw [if_neg hid] at hrow
      have hne : id ≠ revision.id := fun heq => hid heq.symm
      rw [parentsOf_insertParents_of_ne hne]
      exact h.told id _ (getRevision_eq_some.mpr ⟨row, hrow, rfl⟩)
  · rcases storedParent_insertParents.mp hp with hold | ⟨rfl, hnew⟩
    · obtain ⟨hstored, hcontent⟩ := h.edges x p hold
      exact ⟨hgrows.hasRevision hstored, hcontent⟩
    · exact ⟨hgrows.hasRevision (hparents p hnew), _, htold, hnew⟩

end Tables

/-- What a transaction would be rolled back to keeps to the chronicle, too, and the bytes are those
that hash to their names. -/
structure Store.KeepsTo (c : Chronicle) (s : Store) : Prop where
  tables : s.tables.KeepsTo c
  snapshot : ∀ t, s.snapshot = some t → t.KeepsTo c
  blobs : ∀ hash bytes, s.getBlob hash = some bytes → c.sha256 bytes = hash

namespace Store

variable {s : Store}

theorem keepsTo_empty : Store.empty.KeepsTo c :=
  ⟨Tables.keepsTo_empty, fun _ h => (by cases h), fun _ _ h => (by cases h)⟩

theorem KeepsTo.setTables (h : s.KeepsTo c) {t : Tables} (ht : t.KeepsTo c) :
    (s.setTables t).KeepsTo c :=
  ⟨ht, h.snapshot, h.blobs⟩

theorem KeepsTo.putBlob (h : s.KeepsTo c) (bytes : Bytes) :
    (s.putBlob c.sha256 bytes).KeepsTo c := by
  refine ⟨h.tables, h.snapshot, fun hash found hget => ?_⟩
  obtain ⟨row, hrow, rfl⟩ := Option.map_eq_some_iff.mp hget
  have hkey : row.1 = hash := Table.key_of_find hrow
  rcases Table.mem_insert (Table.mem_of_find hrow) with hold | ⟨rfl, -⟩
  · exact h.blobs hash _ (Option.map_eq_some_iff.mpr ⟨row, hkey ▸ Table.find_of_mem hold, rfl⟩)
  · exact hkey

theorem KeepsTo.before (h : s.KeepsTo c) : (s.snapshot.getD s.tables).KeepsTo c := by
  cases hsnapshot : s.snapshot with
  | none => exact h.tables
  | some t => exact h.snapshot t hsnapshot

theorem KeepsTo.rollback (h : s.KeepsTo c) : s.rollback.KeepsTo c :=
  ⟨h.before, fun _ hnone => (by cases hnone), h.blobs⟩

theorem KeepsTo.reopen (h : s.KeepsTo c) : s.reopen.KeepsTo c :=
  ⟨h.before, fun _ hnone => (by cases hnone), h.blobs⟩

theorem KeepsTo.bookkeeping (h : s.KeepsTo c) {f : Store → Store} (hf : Bookkeeping f) :
    (f s).KeepsTo c := by
  cases hf with
  | enqueue => exact ⟨h.tables, h.snapshot, h.blobs⟩
  | begin => exact ⟨h.tables, fun _ hsome => Option.some.inj hsome ▸ h.tables, h.blobs⟩
  | commit => exact ⟨h.tables, fun _ hnone => (by cases hnone), h.blobs⟩

end Store

/-! ## What a device does -/

/-- The store keeps to the chronicle, and so do the headers that are still to be used. -/
structure Node.KeepsTo (c : Chronicle) (s : Node) : Prop where
  store : s.store.KeepsTo c
  headers : ∀ k, ∀ header ∈ (s.sessions k).headers, c.entry header.revisionId = some header.content

/-- What the device makes, and the headers that it is told, are as the chronicle says. -/
structure Chronicle.Admits (c : Chronicle) (e : NodeEvent) : Prop where
  created : ∀ revision ∈ e.created, c.entry revision.id = some revision.content
  told : ∀ header ∈ e.told, c.entry header.revisionId = some header.content

/-- The headers that the device sends are as the chronicle says. -/
def Chronicle.Honest (c : Chronicle) (e : NodeEvent) : Prop :=
  ∀ header ∈ e.sent, c.entry header.revisionId = some header.content

/-- A device that keeps to the chronicle, as long as it is told what the chronicle says, and then
tells nothing else. -/
def truthful (c : Chronicle) : Contract Node NodeEvent where
  inv := Node.KeepsTo c
  rely _ _ := True
  guar _ _ _ := True
  given _ _ := True
  cond _ e := c.Admits e
  prop _ e := c.Honest e
  prompt _ := False

/-- An access that the contract allows, whatever led to it. -/
def Chronicles (c : Chronicle) (s : Node) (events : List NodeEvent) (t : Node) : Prop :=
  (∀ e ∈ events, c.Admits e) → s.KeepsTo c → t.KeepsTo c ∧ ∀ e ∈ events, c.Honest e

/-- A program that keeps to the chronicle from any state. -/
abbrev Faithful {α : Type} (c : Chronicle) (p : Async Node NodeEvent Failure α) : Prop :=
  ∀ s, s.KeepsTo c → Safe (truthful c) (fun _ _ => True) (fun _ _ => True) p s

theorem faithful_of_chronicles {α : Type} {p : Async Node NodeEvent Failure α}
    (h : Within (Chronicles c) p) : Faithful c p := by
  refine fun s hs => Within.safe ?_ (fun _ h => h) h hs
  intro s events t hchronicles hinv hcond
  obtain ⟨hkeeps, hhonest⟩ := hchronicles hcond hinv
  exact ⟨hhonest, trivial, hkeeps⟩

theorem faithful_bind {α β : Type} {p : Async Node NodeEvent Failure α}
    {k : α → Async Node NodeEvent Failure β} (hp : Faithful c p) (hk : ∀ a, Faithful c (k a)) :
    Faithful c (p >>= k) := by
  intro s hs
  refine Safe.bind (((hp s hs).with_inv hs).mono ?_ fun _ _ _ => trivial)
  exact fun a t ht => hk a t ht.2

theorem faithful_attempt {α : Type} {p : Async Node NodeEvent Failure α} (hp : Faithful c p) :
    Faithful c p.attempt :=
  fun s hs => Safe.attempt (hp s hs)

/-! ## The store -/

section Store

variable {α : Type}

theorem chronicles_idle (s : Node) : Chronicles c s [] s := fun _ h => ⟨h, by simp⟩

theorem honest_engine (event : EngineEvent Unit) : c.Honest (.engine event) := by
  intro header h
  cases h

theorem chronicles_changeStore {f : Store → Store} (hf : ∀ s, s.KeepsTo c → (f s).KeepsTo c)
    (s : Node) : Chronicles c s [] (changeStore f [] s).1 := by
  intro _ hs
  rw [Node.changeStore_eq]
  exact ⟨⟨hf _ hs.store, hs.headers⟩, by simp⟩

theorem chronicles_query (f : Tables → α) :
    Within (Chronicles c) (query f : Async Node NodeEvent Failure α) :=
  fun s => ⟨chronicles_idle s, trivial⟩

theorem chronicles_putBlob {sha256 : Bytes → Sha256Hex} (hsha : sha256 = c.sha256)
    (bytes : Bytes) :
    Within (Chronicles c) (putBlob sha256 bytes : Async Node NodeEvent Failure Sha256Hex) := by
  subst hsha
  exact fun s => ⟨chronicles_changeStore (f := Store.putBlob c.sha256 bytes)
    (fun _ h => h.putBlob bytes) s, trivial⟩

theorem chronicles_getBlob (hash : Sha256Hex) :
    Within (Chronicles c) (getBlob hash : Async Node NodeEvent Failure Bytes) := by
  refine fun s => ⟨chronicles_idle s, ?_⟩
  dsimp only [Within]
  split
  · trivial
  · trivial

theorem chronicles_execute {f : Tables → Except Failure Tables} (events : List (EngineEvent Unit))
    (hf : ∀ t t', f t = .ok t' → (∀ e ∈ events, c.Admits (.engine e)) → t.KeepsTo c →
      t'.KeepsTo c) :
    Within (Chronicles c)
      (execute f (events.map (event Node)) : Async Node NodeEvent Failure Unit) := by
  refine fun s => ⟨?_, Within.ofExcept _⟩
  dsimp only
  cases hok : f (store s).tables with
  | error error => exact chronicles_idle s
  | ok tables =>
    intro hadmits hs
    dsimp only
    rw [Node.changeStore_eq]
    refine ⟨⟨hs.store.setTables ?_, hs.headers⟩, fun e hmem => ?_⟩
    · refine hf _ _ hok (fun e he => hadmits _ ?_) hs.store.tables
      exact List.mem_map_of_mem he
    · obtain ⟨event, -, rfl⟩ := List.mem_map.mp hmem
      exact honest_engine event

/-- A statement that leaves the revisions alone. -/
theorem chronicles_same {f : Tables → Except Failure Tables} (events : List (EngineEvent Unit))
    (hf : ∀ t t', f t = .ok t' → t'.revisions = t.revisions ∧
      t'.revisionParents = t.revisionParents) :
    Within (Chronicles c)
      (execute f (events.map (event Node)) : Async Node NodeEvent Failure Unit) :=
  chronicles_execute events fun t t' hok _ h => h.same (hf t t' hok).1 (hf t t' hok).2

theorem chronicles_transaction {body : Async Node NodeEvent Failure α}
    (h : Within (Chronicles c) body) : Within (Chronicles c) (transaction body) :=
  within_transaction_of chronicles_idle
    (fun _ hf => chronicles_changeStore fun _ hs => hs.bookkeeping hf)
    (chronicles_changeStore fun _ hs => hs.rollback) h

end Store

/-! ## The engine -/

namespace SyncEngine

theorem chronicles_report (e : EngineEvent Unit) :
    Within (Chronicles c) (report e : Async Node NodeEvent Failure Unit) := by
  refine fun s => ⟨fun _ hs => ?_, trivial⟩
  rw [Node.changeStore_eq]
  refine ⟨hs, fun e' hmem => ?_⟩
  rw [List.mem_singleton.mp hmem]
  exact honest_engine e

theorem chronicles_requireVault (vaultId : VaultId) :
    Within (Chronicles c) (requireVault vaultId : Async Node NodeEvent Failure Vault) := by
  refine (chronicles_query _).bind fun found => ?_
  split
  · trivial
  · trivial

theorem chronicles_requireRevision (revisionId : RevisionId) :
    Within (Chronicles c) (requireRevision revisionId : Async Node NodeEvent Failure Revision) := by
  refine (chronicles_query _).bind fun found => ?_
  split
  · trivial
  · trivial

theorem chronicles_bytesOf (revisionId : RevisionId) :
    Within (Chronicles c) (bytesOf revisionId : Async Node NodeEvent Failure Bytes) :=
  (chronicles_requireRevision _).bind fun _ => chronicles_getBlob _

/-- A revision may be saved when it is as the chronicle says; one that is made here is. -/
theorem chronicles_saveRevision {revision : Revision}
    (h : c.Admits (.engine (.saved revision)) → c.entry revision.id = some revision.content) :
    Within (Chronicles c) (saveRevision revision : Async Node NodeEvent Failure Unit) :=
  chronicles_execute [_] fun _ _ hok hadmits hkeeps =>
    hkeeps.saveRevision (h (hadmits _ (List.mem_singleton_self _))) hok

theorem chronicles_saveMade {revision : Revision} (h : revision.operation ≠ .received) :
    Within (Chronicles c) (saveRevision revision : Async Node NodeEvent Failure Unit) :=
  chronicles_saveRevision fun hadmits => hadmits.created revision (Option.mem_def.mpr (if_neg h))

theorem chronicles_saveVault (vault : Vault) (why : VaultWrite Unit) :
    Within (Chronicles c) (saveVault vault why : Async Node NodeEvent Failure Unit) := by
  refine chronicles_same [_] fun t t' hok => ?_
  cases hok
  exact ⟨rfl, rfl⟩

theorem chronicles_appendHeadEvent (headEvent : HeadRevisionEvent) :
    Within (Chronicles c) (appendHeadEvent headEvent : Async Node NodeEvent Failure Unit) := by
  refine chronicles_same [] fun t t' hok => ?_
  rw [Tables.appendHeadEvent] at hok
  split at hok
  · cases hok
    exact ⟨rfl, rfl⟩
  · cases hok

theorem chronicles_recordPeerHead (now : Nat) (deviceId : DeviceId) (vaultId : VaultId)
    (head : RevisionId) :
    Within (Chronicles c) (recordPeerHead now deviceId vaultId head :
      Async Node NodeEvent Failure Unit) := by
  refine chronicles_same [] fun t t' hok => ?_
  rw [Tables.recordPeerHead] at hok
  split at hok
  · cases hok
    exact ⟨rfl, rfl⟩
  · cases hok

variable (deps : EngineDeps)

theorem chronicles_importVault (hsha : deps.sha256 = c.sha256) (vaultId : VaultId)
    (stamp : Stamp) (name : String) (bytes : Bytes) (kdbxPath : Option FilePath) :
    Within (Chronicles c) (importVault deps vaultId stamp name bytes kdbxPath :
      Async Node NodeEvent Failure (Vault × Revision)) := by
  refine (chronicles_putBlob hsha _).bind fun hash => chronicles_transaction ?_
  refine (chronicles_saveVault _ _).bind fun _ => ?_
  refine (chronicles_saveMade ?_).bind fun _ => ?_
  · simp [importedRevision]
  refine (chronicles_saveVault _ _).bind fun _ => ?_
  exact (chronicles_appendHeadEvent _).bind fun _ => trivial

theorem chronicles_headWithHash (headRevisionId : Option RevisionId) (hash : Sha256Hex) :
    Within (Chronicles c) (headWithHash headRevisionId hash :
      Async Node NodeEvent Failure (Option RevisionId)) := by
  cases headRevisionId with
  | none => trivial
  | some headRevisionId =>
    refine (chronicles_query _).bind fun found => ?_
    split
    · trivial
    · trivial

theorem chronicles_recordLocalChange (hsha : deps.sha256 = c.sha256) (stamp : Stamp)
    (vaultId : VaultId) (bytes : Bytes) :
    Within (Chronicles c) (recordLocalChange deps stamp vaultId bytes () :
      Async Node NodeEvent Failure LocalChangeResult) := by
  refine (chronicles_report _).bind fun _ => ?_
  refine (chronicles_requireVault _).bind fun vault => ?_
  refine (chronicles_headWithHash _ _).bind fun found => ?_
  split
  · exact (chronicles_report _).bind fun _ => trivial
  · refine (chronicles_putBlob hsha _).bind fun _ => chronicles_transaction ?_
    refine (chronicles_saveMade ?_).bind fun _ => ?_
    · simp [localChangeRevision]
    refine (chronicles_saveVault _ _).bind fun _ => ?_
    exact (chronicles_appendHeadEvent _).bind fun _ => trivial

theorem chronicles_firstMissing (ids : List RevisionId) :
    Within (Chronicles c) (firstMissing ids :
      Async Node NodeEvent Failure (Option RevisionId)) := by
  induction ids with
  | nil => trivial
  | cons id rest ih =>
    refine (chronicles_query _).bind fun found => ?_
    split
    · exact ih
    · trivial

/-- What is received is as the chronicle says when what was declared is. -/
theorem chronicles_ingestReceivedRevision (hsha : deps.sha256 = c.sha256) (now : Nat)
    {input : IngestInput}
    (h : c.entry input.revisionId = some ⟨input.vaultId, input.declaredHash, input.message,
      {p | p ∈ input.declaredParentIds}⟩) :
    Within (Chronicles c) (ingestReceivedRevision deps now input :
      Async Node NodeEvent Failure IngestResult) := by
  refine (chronicles_query _).bind fun found => ?_
  split
  · trivial
  dsimp only
  split
  · trivial
  rename_i hhash
  refine (chronicles_firstMissing _).bind fun missing => ?_
  split
  · trivial
  refine (chronicles_putBlob hsha _).bind fun _ => ?_
  cases hreceived : receivedRevision
      ⟨input.revisionId, input.vaultId, deps.sha256 input.bytes, input.bytes.length, now,
        input.message⟩ input.declaredParentIds input.fromDeviceId with
  | error error => trivial
  | ok revision =>
    obtain ⟨-, rfl⟩ := receivedRevision_ok hreceived
    simp only [Async.ofExcept_ok, Async.done_bind]
    refine (chronicles_saveRevision fun _ => ?_).bind fun _ => trivial
    rw [Revision.content, base_hash, not_not.mp hhash]
    exact h

theorem chronicles_requireRevisions (ids : List RevisionId) :
    Within (Chronicles c) (requireRevisions ids :
      Async Node NodeEvent Failure (List Revision)) := by
  refine fun s => ⟨chronicles_idle s, ?_⟩
  dsimp only [Within]
  split
  · trivial
  · trivial

theorem chronicles_incomingBytes (revisions : List Revision) :
    Within (Chronicles c) (incomingBytes revisions :
      Async Node NodeEvent Failure (List (RevisionId × Bytes))) := by
  induction revisions with
  | nil => trivial
  | cons revision rest ih =>
    refine (chronicles_getBlob _).bind fun _ => ?_
    exact ih.bind fun _ => trivial

theorem chronicles_merge (hsha : deps.sha256 = c.sha256) (stamp : Stamp) (vaultId : VaultId)
    (baseRevisionId : RevisionId) (incomingRevisionIds : List RevisionId) (message : Option String) :
    Within (Chronicles c) (merge deps stamp vaultId baseRevisionId incomingRevisionIds message :
      Async Node NodeEvent Failure MergeOutcome) := by
  refine (chronicles_requireRevision _).bind fun base => ?_
  refine (chronicles_requireRevisions _).bind fun incoming => ?_
  refine (chronicles_getBlob _).bind fun baseBytes => ?_
  refine (chronicles_incomingBytes _).bind fun bytes => ?_
  split
  · trivial
  · trivial
  · refine (chronicles_putBlob hsha _).bind fun hash => ?_
    generalize hmerged : mergedRevision _ _ _ _ = merged
    cases merged with
    | error error => trivial
    | ok revision =>
      simp only [Async.ofExcept_ok, Async.done_bind]
      refine (chronicles_saveMade ?_).bind fun _ => trivial
      rw [mergedRevision_ok hmerged]
      simp

theorem chronicles_commitHeadMove (next : Vault) (headEvent : HeadRevisionEvent)
    (origin : Option Unit) :
    Within (Chronicles c) (commitHeadMove next headEvent origin :
      Async Node NodeEvent Failure Vault) := by
  refine chronicles_transaction ((chronicles_saveVault _ _).bind fun _ => ?_)
  exact (chronicles_appendHeadEvent _).bind fun _ => trivial

theorem chronicles_promote (now : Nat) (vaultId : VaultId) (revisionId : RevisionId) :
    Within (Chronicles c) (promote now vaultId revisionId :
      Async Node NodeEvent Failure Vault) := by
  refine (chronicles_requireVault _).bind fun vault => ?_
  refine (chronicles_requireRevision _).bind fun revision => ?_
  refine (Within.ofExcept _).bind ?_
  rintro ⟨next, headEvent⟩
  exact chronicles_commitHeadMove _ _ _

theorem chronicles_fastForward (now : Nat) (vaultId : VaultId) (revisionId : RevisionId) :
    Within (Chronicles c) (fastForward now vaultId revisionId () :
      Async Node NodeEvent Failure Vault) := by
  refine (chronicles_report _).bind fun _ => ?_
  refine (chronicles_requireVault _).bind fun vault => ?_
  refine (chronicles_requireRevision _).bind fun revision => ?_
  refine (Within.ofExcept _).bind ?_
  rintro ⟨next, headEvent⟩
  exact chronicles_commitHeadMove _ _ _

theorem chronicles_adoptVault (now : Nat) (vaultId : VaultId) (name : String) :
    Within (Chronicles c) (adoptVault now vaultId name : Async Node NodeEvent Failure Vault) := by
  refine (chronicles_query _).bind fun found => ?_
  split
  · trivial
  · exact (chronicles_saveVault _ _).bind fun _ => trivial

theorem chronicles_bindVaultToFile (vaultId : VaultId) (kdbxPath : FilePath) :
    Within (Chronicles c) (bindVaultToFile vaultId kdbxPath :
      Async Node NodeEvent Failure Vault) := by
  refine (chronicles_requireVault _).bind fun vault => ?_
  exact (chronicles_saveVault _ _).bind fun _ => trivial

theorem chronicles_call (hsha : deps.sha256 = c.sha256) {operation : Operation}
    (h : operation.isLocal = true) :
    Within (Chronicles c) (operation.call deps : Async Node NodeEvent Failure Unit) := by
  cases operation with
  | importVault => exact (chronicles_importVault deps hsha _ _ _ _ _).bind fun _ => trivial
  | recordLocalChange => exact (chronicles_recordLocalChange deps hsha _ _ _).bind fun _ => trivial
  | ingestReceivedRevision => cases h
  | merge => exact (chronicles_merge deps hsha _ _ _ _ _).bind fun _ => trivial
  | promote => exact (chronicles_promote _ _ _).bind fun _ => trivial
  | fastForward => exact (chronicles_fastForward _ _ _).bind fun _ => trivial
  | adoptVault => exact (chronicles_adoptVault _ _ _).bind fun _ => trivial
  | bindVaultToFile => exact (chronicles_bindVaultToFile _ _).bind fun _ => trivial

end SyncEngine

end PassVault
