import PassVault.Core.Transfer
import PassVault.Lib.Coupled
import PassVault.Sync.Confinement
import PassVault.Sync.SameVault
import PassVault.Sync.StoredHistory

/-!
# What a session gives away

Revisions are served by id, whatever vault they belong to. As long as the peer only names ids that
no other vault has, a session gives away what belongs to its vault and nothing else, and it makes
the same run over every store that holds the same of the vault.
-/

namespace PassVault

open Async

/-! ## What the peer says, and what it is told -/

/-- The header is for the vault, and names nothing that other vaults have. -/
structure RevisionHeader.KeepsTo (vaultId : VaultId) (foreign : RevisionId → Prop)
    (header : RevisionHeader) : Prop where
  vaultId : header.vaultId = vaultId
  revisionId : ¬ foreign header.revisionId
  parentIds : ∀ id ∈ header.parentIds, ¬ foreign id

/-- The message names nothing that other vaults have. The vault it advertises is the one that a
session without a vault is about. -/
def Message.KeepsTo (adopts : Bool) (vaultId : VaultId) (foreign : RevisionId → Prop) :
    Message → Prop
  | .vaultSummary remoteId .. => adopts = true → remoteId = vaultId ∨ remoteId = emptyVaultId
  | .wantRevisions _ revisionIds => ∀ id ∈ revisionIds, ¬ foreign id
  | .revisionHeader header => header.KeepsTo vaultId foreign
  | _ => True

theorem Message.keepsTo_complete {adopts : Bool} {vaultId : VaultId}
    {foreign : RevisionId → Prop} {message : Message} (h : message.type = .syncComplete) :
    message.KeepsTo adopts vaultId foreign := by
  cases message <;> trivial

/-- The revision is stored for the vault, with the parents that it has. -/
structure Store.Holds (s : Store) (vaultId : VaultId) (revision : Revision) : Prop where
  row : s.tables.revisions.find revision.id = some revision.row
  vaultId : revision.vaultId = vaultId
  parents : ∀ p ∈ revision.parentIds, s.tables.StoredParent revision.id p

/-- What a session on the vault may put out: headers and summaries of stored revisions of the vault,
and chunks of their bytes. -/
def Gives (vaultId : VaultId) (s : Store) : PeerEvent → Prop
  | .output (.control (.vaultSummary id ..)) => id = vaultId ∨ id = emptyVaultId
  | .output (.control (.historySummary id entries)) => id = vaultId ∧ ∀ entry ∈ entries,
    ∃ revision, s.Holds vaultId revision ∧
      entry = ⟨revision.id, revision.hash, revision.sizeBytes, revision.parentIds⟩
  | .output (.control (.wantRevisions id _)) => id = vaultId
  | .output (.control (.revisionHeader header)) => ∃ revision, s.Holds vaultId revision ∧
    ∃ transferSeq totalChunks, header = SyncSession.headerFor revision transferSeq totalChunks
  | .output (.control (.syncComplete id)) => id = vaultId
  | .output (.bulk frame) => ∃ revision bytes, s.Holds vaultId revision ∧
    s.getBlob revision.hash = some bytes ∧ ∃ transferSeq chunkIndex chunkBytes,
      encodeChunkFrame ⟨transferSeq, chunkIndex, chunkPayload bytes chunkBytes chunkIndex⟩ =
        .ok frame
  | _ => True

namespace Store

theorem Holds.mono {s t : Store} {vaultId : VaultId} {revision : Revision}
    (h : s.Holds vaultId revision) (hst : s.Grows t) : t.Holds vaultId revision :=
  ⟨hst.tables.revisions _ _ h.row, h.vaultId, fun p hp => hst.tables.parents _ _ (h.parents p hp)⟩

/-- A revision that is found by an id of no other vault. -/
theorem Apart.holds {sha256 : Bytes → Sha256Hex} {vaultId : VaultId}
    {foreign : RevisionId → Prop} {s t : Store} (h : Apart sha256 vaultId foreign s t)
    {id : RevisionId} (hid : ¬ foreign id) {revision : Revision}
    (hget : s.tables.getRevision id = some revision) : s.Holds vaultId revision := by
  obtain ⟨row, hrow, rfl⟩ := Tables.getRevision_eq_some.mp hget
  have hkey : row.id = id := Table.key_of_find hrow
  refine ⟨hkey ▸ hrow, (Apart.mem_rows h.leftForeign hid hrow).2, fun p hp => ?_⟩
  have hp := Tables.mem_parentsOf.mp hp
  exact hkey ▸ hp

/-- What a summary of the vault says. -/
theorem holds_historySummary {s : Store} {vaultId : VaultId} {entry : HistorySummaryEntry}
    (hentry : entry ∈ s.tables.historySummary vaultId) :
    ∃ revision, s.Holds vaultId revision ∧
      entry = ⟨revision.id, revision.hash, revision.sizeBytes, revision.parentIds⟩ := by
  obtain ⟨revision, hrevision, rfl⟩ := List.mem_map.mp hentry
  obtain ⟨row, hrow, rfl⟩ := List.mem_map.mp hrevision
  have hrow := List.mem_mergeSort.mp hrow
  have hvault : row.vaultId = vaultId := by simpa using (List.mem_filter.mp hrow).2
  exact ⟨_, ⟨Apart.find_of_mem_rows hrow, hvault, fun p hp => Tables.mem_parentsOf.mp hp⟩, rfl⟩

end Store

theorem Session.Answer.gives {output : Output} (h : Answer output) (vaultId : VaultId)
    (s : Store) : Gives vaultId s (.output output) := by
  rcases h with ⟨_, _, _, rfl⟩ | ⟨_, _, rfl⟩ | ⟨_, rfl⟩
  · exact True.intro
  · exact True.intro
  · exact True.intro

/-- The session hears no message, and has no header, that it had not before. -/
structure Session.NothingNew (s t : Session) : Prop where
  heard : ∀ message, t.Hears message → message.type = .syncComplete ∨ s.Hears message
  headers : t.headers ⊆ s.headers

namespace Session

theorem NothingNew.refl (s : Session) : s.NothingNew s := ⟨fun _ => .inr, fun _ h => h⟩

/-- Neither the messages nor the transfers change. -/
theorem NothingNew.note {s t : Session}
    (h : t.queued = s.queued ∧ t.waiting = s.waiting ∧ t.headers = s.headers) :
    s.NothingNew t := by
  obtain ⟨hqueued, hwaiting, hheaders⟩ := h
  refine ⟨fun message hheard => .inr ?_, hheaders ▸ fun _ h => h⟩
  rwa [Hears, hqueued, hwaiting] at hheard

theorem ProgramStep.nothingNew {s t : Session} (h : s.ProgramStep t) : s.NothingNew t :=
  ⟨fun _ => h.hears, h.headers ▸ fun _ h => h⟩

theorem FrameSteps.nothingNew {s t : Session} (h : FrameSteps s t) : s.NothingNew t :=
  ⟨hears_frameSteps h, (headers_frameSteps h).subset⟩

theorem nothingNew_accepted (revisionId : RevisionId) (s : Session) :
    s.NothingNew (s.accepted revisionId).1 :=
  have h := programStep_accepted revisionId s
  ⟨fun _ => h.hears, h.headers ▸ fun _ h => h⟩

theorem nothingNew_take (s : Session) :
    s.NothingNew { s with inboundWork := s.inboundWork.tail, ingesting := true } :=
  ⟨fun _ => .inr, fun _ hmem => (List.mem_append.mp hmem).elim (fun hmem =>
    List.mem_append_left _ (List.map_subset _ (List.tail_subset _) hmem)) (List.mem_append_right _)⟩

end Session

/-- The same session over two stores that hold the same of the vault. -/
structure Apart (sha256 : Bytes → Sha256Hex) (adopts : Bool) (vaultId : VaultId)
    (foreign : RevisionId → Prop) (s t : Peer) : Prop where
  session : t.session = s.session
  heard : ∀ message, s.session.Hears message → message.KeepsTo adopts vaultId foreign
  headers : ∀ header ∈ s.session.headers, header.KeepsTo vaultId foreign
  stores : Store.Apart sha256 vaultId foreign s.store t.store

/-- Both runs keep to the vault, and nothing stored is lost. -/
def apart (sha256 : Bytes → Sha256Hex) (adopts : Bool) (vaultId : VaultId)
    (foreign : RevisionId → Prop) : Coupling Peer PeerEvent where
  inv := Apart sha256 adopts vaultId foreign
  rely s t := s.store.Grows t.store
  prop s e := Gives vaultId s.store e
  refl s := .refl s.store
  trans _ _ _ := Store.Grows.trans

section Accesses

variable {sha256 : Bytes → Sha256Hex} {adopts : Bool} {vaultId : VaultId}
  {foreign : RevisionId → Prop} {α : Type} {s t : Peer}

theorem Apart.setSession (h : Apart sha256 adopts vaultId foreign s t) {x : Session}
    (hx : s.session.NothingNew x) :
    Apart sha256 adopts vaultId foreign { s with session := x } { t with session := x } :=
  ⟨rfl, fun message hheard => (hx.heard message hheard).elim Message.keepsTo_complete
    (h.heard message), fun header hmem => h.headers header (hx.headers hmem), h.stores⟩

/-- The session changes, and something is put out. -/
theorem coupled_onSession {post : Unit → Peer → Peer → Prop}
    {f : Session → Session × List Output} (hs : Apart sha256 adopts vaultId foreign s t)
    (hf : s.session.NothingNew (f s.session).1)
    (hgives : ∀ output ∈ (f s.session).2, Gives vaultId s.store (.output output))
    (hpost : ∀ s' t' : Peer, s'.store = s.store → t'.store = t.store →
      Apart sha256 adopts vaultId foreign s' t' → post () s' t') :
    Coupled (apart sha256 adopts vaultId foreign) post (SyncSession.onSession 0 f) s t := by
  have hs' := hs.setSession hf
  have hsession := hs.session
  refine ⟨⟨?_, rfl, fun e he => ?_⟩, .refl _, .refl _, ?_, ?_⟩
  · simp only [Peer.session_eq, hsession]
  · obtain ⟨output, hmem, rfl⟩ := List.mem_map.mp he
    exact hgives output hmem
  · simpa only [apart, Peer.session_eq, Peer.setSession_eq, hsession] using hs'
  · refine hpost _ _ rfl rfl ?_
    simpa only [Peer.session_eq, Peer.setSession_eq, hsession] using hs'

theorem alike_onSession {Q : Unit → Prop} {f : Session → Session × List Output}
    (hf : ∀ s : Session, s.NothingNew (f s).1)
    (hgives : ∀ s : Peer, ∀ output ∈ (f s.session).2, Gives vaultId s.store (.output output))
    (hpost : Q ()) :
    Alike (apart sha256 adopts vaultId foreign) Q (SyncSession.onSession 0 f) :=
  fun s _ hs => coupled_onSession hs (hf _) (hgives s) fun _ _ _ _ hs' => ⟨hpost, hs'⟩

theorem alike_update {Q : Unit → Prop} {f : Session → Session}
    (hf : ∀ s : Session, s.NothingNew (f s)) (hpost : Q ()) :
    Alike (apart sha256 adopts vaultId foreign) Q (SyncSession.update 0 f) :=
  alike_onSession hf (by simp) hpost

theorem alike_send {Q : Unit → Prop} {message : Message}
    (h : ∀ s, Gives vaultId s (.output (.control message))) (hpost : Q ()) :
    Alike (apart sha256 adopts vaultId foreign) Q (SyncSession.send 0 message) :=
  alike_onSession .refl (fun _ _ hmem => List.mem_singleton.mp hmem ▸ h _) hpost

theorem alike_pause {Q : Unit → Prop} (hpost : Q ()) :
    Alike (apart sha256 adopts vaultId foreign) Q
      (Async.pause : Async Peer PeerEvent Failure Unit) :=
  Alike.await (fun _ _ _ => rfl) (.done hpost)

theorem alike_emit {Q : Unit → Prop} {event : SessionEvent} (hpost : Q ()) :
    Alike (apart sha256 adopts vaultId foreign) Q (SyncSession.emit 0 event) :=
  alike_onSession .refl (fun _ _ hmem => by rw [List.mem_singleton.mp hmem]; trivial) hpost

theorem alike_readSession {Q : α → Prop} {f : Session → α}
    (hpost : ∀ s : Peer, (∀ message, s.session.Hears message →
      message.KeepsTo adopts vaultId foreign) → Q (f s.session)) :
    Alike (apart sha256 adopts vaultId foreign) Q (SyncSession.readSession 0 f) := by
  intro s t hs
  refine ⟨⟨rfl, ?_, by simp⟩, .refl _, .refl _, hs, hpost s hs.heard, hs⟩
  simp only [Peer.session_eq, hs.session]

theorem alike_takeOutcome {Q : Message → Prop}
    (hpost : ∀ message, message.KeepsTo adopts vaultId foreign → Q message) :
    Alike (apart sha256 adopts vaultId foreign) Q (SyncSession.takeOutcome 0) := by
  refine Alike.bind (fun waiting hwaiting => ?_) (alike_readSession (Q := fun waiting =>
    ∀ message, waiting = .settled (.ok message) → message.KeepsTo adopts vaultId foreign)
    fun s hheard message hsettled => hheard message (.inr hsettled))
  refine Alike.bind (fun _ _ => ?_)
    (alike_update (Q := fun _ => True) (fun s => (Session.programStep_idle s).nothingNew) trivial)
  split
  · exact Alike.ofExcept fun message hok => hpost message (hwaiting message (hok ▸ rfl))
  · exact .fail

theorem alike_expect {type : MessageType} {Q : Message → Prop}
    (hpost : ∀ message, message.KeepsTo adopts vaultId foreign → Q message) :
    Alike (apart sha256 adopts vaultId foreign) Q (SyncSession.expect 0 type) := by
  refine Alike.bind (fun _ _ => ?_)
    (alike_update (Q := fun _ => True) (fun s => (Session.programStep_expect type s).nothingNew)
      trivial)
  refine Alike.await (fun s t hs => ?_) (alike_takeOutcome hpost)
  simp only [Peer.session_eq, hs.session]

theorem alike_fromBase64 {text reason : String} {Q : Bytes → Prop} (hpost : ∀ bytes, Q bytes) :
    Alike (apart sha256 adopts vaultId foreign) Q (SyncSession.fromBase64 text reason) := by
  unfold SyncSession.fromBase64
  split
  · exact .done (hpost _)
  · exact .fail

/-! ## The store -/

/-- A query that finds the same in both stores. -/
theorem coupled_query {post : α → Peer → Peer → Prop} {f : Tables → α}
    (hs : Apart sha256 adopts vaultId foreign s t) (hsame : f t.store.tables = f s.store.tables)
    (hpost : ∀ s' t' : Peer, s.store.Grows s'.store → t.store.Grows t'.store →
      Apart sha256 adopts vaultId foreign s' t' → post (f s.store.tables) s' t') :
    Coupled (apart sha256 adopts vaultId foreign) post (query f) s t := by
  refine ⟨⟨rfl, ?_, by simp⟩, .refl _, .refl _, hs, fun s' t' hs' ht' hinv =>
    ⟨rfl, hpost s' t' hs' ht' hinv⟩⟩
  simp only [Peer.store_eq, hsame]

theorem alike_query {Q : α → Prop} {f : Tables → α}
    (h : ∀ s t, Store.Apart sha256 vaultId foreign s t → f t.tables = f s.tables ∧ Q (f s.tables)) :
    Alike (apart sha256 adopts vaultId foreign) Q (query f) :=
  fun _ _ hs => coupled_query hs (h _ _ hs.stores).1 fun _ _ _ _ hinv =>
    ⟨(h _ _ hs.stores).2, hinv⟩

/-- A statement that succeeds in both stores or in neither. -/
theorem coupled_execute {post : Unit → Peer → Peer → Prop} {f : Tables → Except Failure Tables}
    {events : List PeerEvent} (hs : Apart sha256 adopts vaultId foreign s t)
    (hsame : (f t.store.tables).map (fun _ => ()) = (f s.store.tables).map fun _ => ())
    (hgives : ∀ e ∈ events, Gives vaultId s.store e)
    (hok : ∀ tables tables', f s.store.tables = .ok tables → f t.store.tables = .ok tables' →
      Tables.Grows s.store.tables tables ∧ Tables.Grows t.store.tables tables' ∧
        Store.Apart sha256 vaultId foreign (s.store.setTables tables) (t.store.setTables tables'))
    (hpost : ∀ s' t' : Peer, Apart sha256 adopts vaultId foreign s' t' → post () s' t') :
    Coupled (apart sha256 adopts vaultId foreign) post (execute f events) s t := by
  cases hf : f s.store.tables with
  | error e =>
    cases hg : f t.store.tables with
    | ok tables' =>
      rw [hf, hg] at hsame
      cases hsame
    | error e' =>
      rw [hf, hg] at hsame
      cases hsame
      simp only [execute, Coupled, Peer.store_eq, hf, hg]
      exact ⟨⟨trivial, trivial, by simp⟩, .refl _, .refl _, hs,
        fun _ _ _ _ _ => ⟨trivial, trivial⟩⟩
  | ok tables =>
    cases hg : f t.store.tables with
    | error e' =>
      rw [hf, hg] at hsame
      cases hsame
    | ok tables' =>
      obtain ⟨hsgrows, htgrows, hstores⟩ := hok tables tables' hf hg
      simp only [execute, Coupled, Peer.store_eq, hf, hg, Peer.changeStore_eq]
      exact ⟨⟨trivial, rfl, hgives⟩, Store.grows_setTables hsgrows,
        Store.grows_setTables htgrows, ⟨hs.session, hs.heard, hs.headers, hstores⟩,
        fun s' t' _ _ hinv => ⟨trivial, hpost s' t' hinv⟩⟩

theorem alike_execute {Q : Unit → Prop} {f : Tables → Except Failure Tables}
    {events : List PeerEvent} (hgives : ∀ s, ∀ e ∈ events, Gives vaultId s e)
    (h : ∀ s t, Store.Apart sha256 vaultId foreign s t →
      (f t.tables).map (fun _ => ()) = (f s.tables).map (fun _ => ()) ∧
        ∀ tables tables', f s.tables = .ok tables → f t.tables = .ok tables' →
          Tables.Grows s.tables tables ∧ Tables.Grows t.tables tables' ∧
            Store.Apart sha256 vaultId foreign (s.setTables tables) (t.setTables tables'))
    (hpost : Q ()) :
    Alike (apart sha256 adopts vaultId foreign) Q (execute f events) :=
  fun _ _ hs => coupled_execute hs (h _ _ hs.stores).1 (hgives _) (h _ _ hs.stores).2
    fun _ _ hinv => ⟨hpost, hinv⟩

end Accesses

namespace SyncSession

variable {sha256 : Bytes → Sha256Hex} {adopts : Bool} {vaultId : VaultId}
  {foreign : RevisionId → Prop} {s t : Peer}

/-! ## Until the vault is agreed on -/

theorem alike_handshake (auth : PeerAuthenticator) :
    Alike (apart sha256 adopts vaultId foreign) (fun _ => True) (handshake 0 auth) := by
  refine Alike.bind (fun _ _ => ?_) (alike_send (Q := fun _ => True) (fun _ => trivial) trivial)
  refine Alike.bind (fun hello _ => ?_) (alike_expect (Q := fun _ => True) fun _ _ => trivial)
  split
  · dsimp only
    split
    · refine Alike.bind (fun _ _ => ?_)
        (alike_send (Q := fun _ => True) (fun _ => trivial) trivial)
      exact .fail
    refine Alike.bind (fun key _ => ?_) (alike_fromBase64 (Q := fun _ => True) fun _ => trivial)
    refine Alike.bind (fun nonce _ => ?_) (alike_fromBase64 (Q := fun _ => True) fun _ => trivial)
    refine Alike.bind (fun _ _ => ?_) (alike_pause (Q := fun _ => True) trivial)
    refine Alike.bind (fun _ _ => ?_) (alike_send (Q := fun _ => True) (fun _ => trivial) trivial)
    refine Alike.bind (fun answer _ => ?_) (alike_expect (Q := fun _ => True) fun _ _ => trivial)
    split
    · refine Alike.bind (fun signature _ => ?_)
        (alike_fromBase64 (Q := fun _ => True) fun _ => trivial)
      refine Alike.bind (fun _ _ => ?_) (alike_pause (Q := fun _ => True) trivial)
      split
      · refine Alike.bind (fun _ _ => ?_)
          (alike_send (Q := fun _ => True) (fun _ => trivial) trivial)
        exact .fail
      · refine Alike.bind (fun _ _ => ?_) (alike_update (Q := fun _ => True)
          (fun _ => .note ⟨rfl, rfl, rfl⟩) trivial)
        refine Alike.bind (fun _ _ => ?_) (alike_emit (Q := fun _ => True) trivial)
        refine Alike.bind (fun _ _ => ?_) (alike_emit (Q := fun _ => True) trivial)
        exact .done trivial
    · exact .fail
  · exact .fail

theorem alike_exchangeHistory :
    Alike (apart sha256 adopts vaultId foreign) (fun _ => True) (exchangeHistory 0 vaultId) := by
  intro s t hs
  refine Coupled.bind (coupled_query (f := fun t => t.historySummary vaultId) hs
    hs.stores.historySummary fun s' t' hgrows _ hs' => ?_)
  have hentries : ∀ entry ∈ s.store.tables.historySummary vaultId, ∃ revision,
      s'.store.Holds vaultId revision ∧
        entry = ⟨revision.id, revision.hash, revision.sizeBytes, revision.parentIds⟩ := by
    intro entry hentry
    obtain ⟨revision, hholds, heq⟩ := Store.holds_historySummary hentry
    exact ⟨revision, hholds.mono hgrows, heq⟩
  refine Coupled.bind (coupled_onSession hs' (.refl _) (fun output hmem => ?_)
    fun s'' t'' _ _ hs'' => ?_)
  · rw [List.mem_singleton.mp hmem]
    exact ⟨rfl, hentries⟩
  refine Alike.bind (fun answer _ => ?_) (alike_expect (Q := fun _ => True) fun _ _ => trivial)
    s'' t'' hs''
  split
  · exact .done trivial
  · exact .fail

theorem alike_computeWants (graph : RevisionGraph) (remoteHead : Option RevisionId) :
    Alike (apart sha256 adopts vaultId foreign) (fun _ => True)
      (computeWants vaultId graph remoteHead) := by
  cases remoteHead with
  | none => exact .done trivial
  | some head =>
    refine Alike.bind (fun summary _ => .ofExcept fun _ _ => trivial)
      (alike_query (Q := fun _ => True) fun s t hst => ⟨hst.historySummary, trivial⟩)

theorem alike_classify (graph : RevisionGraph) (remoteHead : Option RevisionId) :
    Alike (apart sha256 adopts vaultId foreign) (fun _ => True)
      (classify vaultId graph remoteHead) := by
  refine Alike.bind (fun vault _ => ?_) (alike_query (Q := fun _ => True) fun s t hst =>
    ⟨hst.same.vault, trivial⟩)
  split
  · exact .done trivial
  · exact .done trivial
  · exact .done trivial
  · exact Alike.bind (fun summary _ => .done trivial)
      (alike_query (Q := fun _ => True) fun s t hst => ⟨hst.historySummary, trivial⟩)

/-! ## Serving -/

theorem alike_backpressure (highWaterBytes : Nat) :
    Alike (apart sha256 adopts vaultId foreign) (fun _ => True) (backpressure 0 highWaterBytes) := by
  refine Alike.bind (fun buffered _ => ?_) (alike_readSession (Q := fun _ => True) fun _ _ => trivial)
  split
  · refine Alike.await (fun s t hs => ?_) (.done trivial)
    simp only [Peer.session_eq, hs.session]
  · exact .done trivial

theorem coupled_sendChunks (deps : SessionDeps) (transferSeq : Nat) {revision : Revision}
    {bytes : Bytes} (indices : List Nat) (hs : Apart sha256 adopts vaultId foreign s t)
    (hholds : s.store.Holds vaultId revision)
    (hbytes : s.store.getBlob revision.hash = some bytes) :
    Coupled (apart sha256 adopts vaultId foreign)
      (fun _ s' t' => True ∧ Apart sha256 adopts vaultId foreign s' t')
      (sendChunks 0 deps transferSeq bytes indices) s t := by
  induction indices generalizing s t with
  | nil => exact ⟨trivial, hs⟩
  | cons chunkIndex rest ih =>
    refine Alike.before hs (fun _ s' t' _ hgrows hs' => ?_) (alike_backpressure deps.highWaterBytes)
    refine Alike.before (Q := fun frame => encodeChunkFrame ⟨transferSeq, chunkIndex,
      chunkPayload bytes deps.chunkBytes chunkIndex⟩ = .ok frame) hs'
      (fun frame s'' t'' hframe hgrows' hs'' => ?_) (.ofExcept fun _ h => h)
    have hgrows'' : s.store.Grows s''.store := .trans hgrows hgrows'
    have hholds'' := hholds.mono hgrows''
    have hbytes'' := hgrows''.blobs _ _ hbytes
    refine Coupled.bind (coupled_onSession hs'' (.refl _) (fun output hmem => ?_)
      fun u v hsu _ hu => ih hu (hsu ▸ hholds'') (hsu ▸ hbytes''))
    rw [List.mem_singleton.mp hmem]
    exact ⟨revision, bytes, hholds'', hbytes'', _, _, _, hframe⟩

theorem alike_takeAck :
    Alike (apart sha256 adopts vaultId foreign) (fun _ => True) (takeAck 0) := by
  refine Alike.await (fun s t hs => ?_) ?_
  · simp only [Peer.session_eq, hs.session]
  refine Alike.bind (fun ack _ => ?_) (alike_readSession (Q := fun _ => True) fun _ _ => trivial)
  refine Alike.bind (fun _ _ => ?_) (alike_update (Q := fun _ => True)
    (fun _ => .note ⟨rfl, rfl, rfl⟩) trivial)
  split
  · exact .done trivial
  · exact .fail

theorem coupled_sendRevision (deps : SessionDeps) (transferSeq : Nat) {revision : Revision}
    {bytes : Bytes} (last : Bool) (hs : Apart sha256 adopts vaultId foreign s t)
    (hholds : s.store.Holds vaultId revision)
    (hbytes : s.store.getBlob revision.hash = some bytes) :
    Coupled (apart sha256 adopts vaultId foreign)
      (fun _ s' t' => True ∧ Apart sha256 adopts vaultId foreign s' t')
      (sendRevision 0 deps transferSeq revision bytes last) s t := by
  refine Alike.before (Q := fun _ => True) hs (fun totalChunks s₁ t₁ _ hgrows₁ hs₁ => ?_)
    (.ofExcept fun _ _ => trivial)
  have hholds₁ := hholds.mono hgrows₁
  have hbytes₁ := Store.Grows.blobs hgrows₁ _ _ hbytes
  refine Coupled.bind (coupled_onSession hs₁ (.refl _) (fun output hmem => ?_)
    fun s₂ t₂ heq _ hs₂ => ?_)
  · rw [List.mem_singleton.mp hmem]
    exact ⟨revision, hholds₁, _, _, rfl⟩
  rw [← heq] at hholds₁ hbytes₁
  refine Alike.before hs₂ (fun _ s₃ t₃ _ hgrows₃ hs₃ => ?_) (alike_emit (Q := fun _ => True) trivial)
  refine Alike.before hs₃ (fun _ s₄ t₄ _ hgrows₄ hs₄ => ?_) (alike_update (Q := fun _ => True)
    (fun _ => .note ⟨rfl, rfl, rfl⟩) trivial)
  have hgrows₅ : s₂.store.Grows s₄.store := .trans hgrows₃ hgrows₄
  refine Coupled.bind ((coupled_sendChunks deps transferSeq _ hs₄ (hholds₁.mono hgrows₅)
    (hgrows₅.blobs _ _ hbytes₁)).mono fun _ s₅ t₅ ⟨_, hs₅⟩ => ?_)
  have hrest : Alike (apart sha256 adopts vaultId foreign) (fun _ => True) (do
      update 0 fun s => { s with unsent := !last }
      let reply ← takeAck 0
      if reply.1 then
        onSession 0 fun s =>
          ({ s with sent := s.sent ++ [revision.id] }, [.event (.sent revision.id)])
      else
        (emit 0 (.rejected revision.id (reply.2.getD "peer rejected")) :
          Async Peer PeerEvent Failure Unit)) := by
    refine Alike.bind (fun _ _ => ?_) (alike_update (Q := fun _ => True)
      (fun _ => .note ⟨rfl, rfl, rfl⟩) trivial)
    refine Alike.bind ?_ alike_takeAck
    rintro ⟨accepted, reason⟩ -
    dsimp only
    split
    · refine alike_onSession (fun _ => .note ⟨rfl, rfl, rfl⟩) (fun s output hmem => ?_)
        trivial
      rw [List.mem_singleton.mp hmem]
      trivial
    · exact alike_emit trivial
  exact hrest s₅ t₅ hs₅

/-- The bytes of a revision that was found. -/
theorem coupled_bytesOf (hsha : Function.Injective sha256) {post : Bytes → Peer → Peer → Prop}
    (hs : Apart sha256 adopts vaultId foreign s t) {id : RevisionId} (hid : ¬ foreign id)
    {revision : Revision} (hrevision : revision.id = id) (hholds : s.store.Holds vaultId revision)
    (hpost : ∀ bytes (s' t' : Peer), Apart sha256 adopts vaultId foreign s' t' →
      s.store.Grows s'.store → s'.store.getBlob revision.hash = some bytes → post bytes s' t') :
    Coupled (apart sha256 adopts vaultId foreign) post (SyncEngine.bytesOf id) s t := by
  refine Coupled.bind (Coupled.bind (coupled_query hs (hs.stores.getRevision hid)
    fun s' t' hst _ hs' => ?_))
  have hrow : s.store.tables.revisions.find id = some revision.row := hrevision ▸ hholds.row
  obtain ⟨found, hget, hhash⟩ : ∃ found, s.store.tables.getRevision id = some found ∧
      found.hash = revision.hash :=
    ⟨_, Tables.getRevision_eq_some.mpr ⟨_, hrow, rfl⟩, rfl⟩
  rw [hget]
  change Coupled _ _ (getBlob found.hash) s' t'
  rw [hhash]
  have hrow' : s'.store.tables.revisions.find id = some revision.row :=
    hst.tables.revisions _ _ hrow
  have hleft := hs'.stores.left.blobs _ _ hrow'
  have hright := hs'.stores.right.blobs _ _ ((hs'.stores.find hid).trans hrow')
  have hsame := hs'.stores.getBlob hsha hleft hright
  obtain ⟨bytes, hbytes⟩ := hleft
  have hbytes : s'.store.getBlob revision.hash = some bytes := hbytes
  have hbytes' : t'.store.getBlob revision.hash = some bytes := hsame.trans hbytes
  refine ⟨⟨rfl, ?_, by simp⟩, .refl _, .refl _, hs', fun s'' t'' hst' _ hs'' => ⟨rfl, ?_⟩⟩
  · simp only [Peer.store_eq, hbytes, hbytes']
  · simp only [Peer.store_eq, hbytes]
    exact hpost bytes s'' t'' hs'' (.trans hst hst') (hst'.blobs _ _ hbytes)

theorem alike_serve (hsha : Function.Injective sha256) (deps : SessionDeps) {ids : List RevisionId}
    (hids : ∀ id ∈ ids, ¬ foreign id) (transferSeq : Nat) :
    Alike (apart sha256 adopts vaultId foreign) (fun _ => True) (serve 0 deps ids transferSeq) := by
  induction ids generalizing transferSeq with
  | nil => exact alike_update (fun _ => .note ⟨rfl, rfl, rfl⟩) trivial
  | cons id rest ih =>
    obtain ⟨hid, hrest⟩ := List.forall_mem_cons.mp hids
    intro s t hs
    refine Coupled.bind (coupled_query hs (hs.stores.getRevision hid) fun s' t' hst _ hs' => ?_)
    cases hget : s.store.tables.getRevision id with
    | none => exact ih hrest transferSeq s' t' hs'
    | some revision =>
      have hholds := (hs.stores.holds hid hget).mono hst
      refine Coupled.bind (coupled_bytesOf hsha hs' hid (Tables.id_of_getRevision hget) hholds
        fun bytes s'' t'' hs'' hst' hbytes => ?_)
      exact Coupled.bind ((coupled_sendRevision deps _ _ hs'' (hholds.mono hst') hbytes).mono
        fun _ u v ⟨_, hu⟩ => ih hrest _ u v hu)

theorem alike_exchangeRevisions (hsha : Function.Injective sha256) (deps : SessionDeps)
    {theirWants : List RevisionId} (hids : ∀ id ∈ theirWants, ¬ foreign id) :
    Alike (apart sha256 adopts vaultId foreign) (fun _ => True)
      (exchangeRevisions 0 deps theirWants) := by
  refine Alike.bind (fun _ _ => ?_) (alike_update (Q := fun _ => True)
    (fun _ => .note ⟨rfl, rfl, rfl⟩) trivial)
  refine Alike.bind (fun _ _ => ?_) (alike_serve hsha deps hids 0)
  refine Alike.await (fun s t hs => ?_) (.done trivial)
  simp only [Peer.session_eq, hs.session]

/-! ## To the end -/

theorem alike_awaitCompletion :
    Alike (apart sha256 adopts vaultId foreign) (fun _ => True) (awaitCompletion 0) := by
  refine Alike.bind (fun _ _ => ?_) (alike_update (Q := fun _ => True)
    (fun s => Session.ProgramStep.nothingNew (.note ⟨rfl, rfl, rfl, rfl, rfl, rfl, rfl⟩
      (.inr fun message h => ?_))) trivial)
  · refine Alike.bind (fun _ _ => .done trivial) (Alike.await (fun s t hs => ?_)
      (alike_takeOutcome (Q := fun _ => True) fun _ _ => trivial))
    simp only [Peer.session_eq, hs.session]
  · dsimp only at h
    split at h
    · cases h
      rfl
    · cases h

theorem alike_awaitInbound :
    Alike (apart sha256 adopts vaultId foreign) (fun _ => True) (awaitInbound 0) := by
  refine Alike.bind (fun links _ => ?_) (alike_readSession (Q := fun _ => True) fun _ _ => trivial)
  refine Alike.await (fun s t hs => ?_) (.done trivial)
  simp only [Peer.session_eq, hs.session]

theorem alike_recordPeerHead (now : Nat) (deviceId : DeviceId) (head : RevisionId) :
    Alike (apart sha256 adopts vaultId foreign) (fun _ => True)
      (SyncEngine.recordPeerHead now deviceId vaultId head) := by
  refine alike_execute (by simp) (fun s t hst => ?_) trivial
  obtain ⟨hsame, hok⟩ := hst.recordPeerHead
    (show (⟨deviceId, vaultId, head, now⟩ : PeerHeadRow).vaultId = vaultId from rfl)
  exact ⟨hsame, fun tables tables' h h' => ⟨Tables.grows_recordPeerHead h,
    Tables.grows_recordPeerHead h', hok tables tables' h h'⟩⟩

theorem alike_conclude (remote : RemoteDevice) (graph : RevisionGraph)
    (remoteHead : Option RevisionId) :
    Alike (apart sha256 adopts vaultId foreign) (fun _ => True)
      (conclude remote vaultId graph remoteHead) := by
  refine Alike.bind ?_ (alike_readSession (Q := fun _ => True) fun _ _ => trivial)
  rintro ⟨received, sent, missing⟩ -
  exact Alike.bind (fun divergence _ => .done trivial) (alike_classify graph remoteHead)

/-- The vault of a session is `vaultId`, given or adopted. -/
structure About (deps : SessionDeps) (adopts : Bool) (vaultId : VaultId) : Prop where
  given : ∀ id, deps.vaultId = some id → id = vaultId
  adopted : deps.vaultId = none → adopts = true

theorem alike_localVault {deps : SessionDeps} (h : About deps adopts vaultId) :
    Alike (apart sha256 adopts vaultId foreign) (fun vault => ∀ v, vault = some v → v.id = vaultId)
      (localVault deps.vaultId) := by
  cases hgiven : deps.vaultId with
  | none => exact .done fun _ hv => by cases hv
  | some id =>
    have hid := h.given id hgiven
    rw [hid]
    refine alike_query (f := fun t => t.getVault vaultId)
      (Q := fun vault => ∀ v, vault = some v → v.id = vaultId) fun s t hst =>
      ⟨hst.same.vault, fun v hv => ?_⟩
    have hkey : v.id = vaultId := Table.key_of_find hv
    exact hkey

theorem alike_advertise {vault : Option Vault} (h : ∀ v, vault = some v → v.id = vaultId) :
    Alike (apart sha256 adopts vaultId foreign) (fun _ => True) (advertise 0 vault) := by
  cases vault with
  | none => exact alike_send (fun _ => .inr rfl) trivial
  | some v =>
    have hid := h v rfl
    refine Alike.bind (fun _ _ => ?_) (alike_query (Q := fun _ => True) fun s t hst => ⟨?_, trivial⟩)
    · exact alike_send (fun _ => .inl hid) trivial
    · rw [hid, hst.listRevisions]

theorem alike_adoptVault (now : Nat) (name : String) :
    Alike (apart sha256 adopts vaultId foreign) (fun _ => True)
      (SyncEngine.adoptVault now vaultId name) := by
  refine Alike.bind (fun found _ => ?_) (alike_query (Q := fun _ => True) fun s t hst =>
    ⟨hst.same.vault, trivial⟩)
  split
  · exact .done trivial
  · refine Alike.bind (fun _ _ => .done trivial) (alike_execute (Q := fun _ => True) ?_ ?_ trivial)
    · intro s e he
      rw [List.mem_singleton.mp he]
      trivial
    · refine fun s t hst => ⟨rfl, fun tables tables' hs ht => ?_⟩
      cases hs
      cases ht
      exact ⟨Tables.grows_saveVault _ _, Tables.grows_saveVault _ _, hst.saveVault rfl⟩

theorem alike_exchangeVaultSummary {deps : SessionDeps} (h : About deps adopts vaultId) :
    Alike (apart sha256 adopts vaultId foreign) (fun r => r.1 = vaultId)
      (exchangeVaultSummary 0 deps (fun _ => return ())) := by
  refine Alike.bind (fun vault hvault => ?_) (alike_localVault h)
  dsimp only
  split
  · refine Alike.bind (fun _ _ => ?_) (alike_send (Q := fun _ => True) (fun _ => trivial) trivial)
    exact .fail
  rename_i hknown
  refine Alike.bind (fun _ _ => ?_) (alike_advertise hvault)
  refine Alike.bind (fun summary hsummary => ?_) (alike_expect (Q := fun message =>
    message.KeepsTo adopts vaultId foreign) fun _ => id)
  split
  · split
    · split
      · exact .fail
      · rename_i hempty
        have hnone : deps.vaultId = none := by
          cases hgiven : deps.vaultId with
          | none => rfl
          | some id => exact absurd ⟨by simp [hgiven], rfl⟩ hknown
        rw [(hsummary (h.adopted hnone)).resolve_right hempty]
        refine Alike.bind (fun _ _ => ?_) (alike_adoptVault _ _)
        refine Alike.bind (fun _ _ => ?_) (alike_emit (Q := fun _ => True) trivial)
        exact .done rfl
    · split
      · exact .fail
      · exact .done (hvault _ rfl)
  · exact .fail

theorem alike_exchange (hsha : Function.Injective sha256) {deps : SessionDeps}
    (habout : About deps adopts vaultId) (remote : RemoteDevice) :
    Alike (apart sha256 adopts vaultId foreign) (fun _ => True) (exchange deps remote) := by
  refine Alike.bind ?_ (alike_exchangeVaultSummary habout)
  rintro ⟨id, remoteHead⟩ hid
  dsimp only at hid
  subst hid
  refine Alike.bind (fun summary _ => ?_) alike_exchangeHistory
  refine Alike.bind (Q := fun _ => True) (fun _ _ => ?_) (.ofExcept fun _ _ => trivial)
  refine Alike.bind (fun wanted _ => ?_) (alike_computeWants _ _)
  refine Alike.bind (fun _ _ => ?_) (alike_onSession (Q := fun _ => True)
    (fun _ => .note ⟨rfl, rfl, rfl⟩) (fun s output hmem => ?_) trivial)
  · refine Alike.bind (fun _ _ => ?_) (alike_send (Q := fun _ => True) (fun _ => rfl) trivial)
    refine Alike.bind (fun answer hanswer => ?_) (alike_expect (Q := fun message =>
      message.KeepsTo adopts _ foreign) fun _ h => h)
    split
    · refine Alike.bind (fun _ _ => ?_) (alike_exchangeRevisions hsha deps hanswer)
      refine Alike.bind (fun _ _ => ?_) (alike_send (Q := fun _ => True) (fun _ => rfl) trivial)
      refine Alike.bind (fun _ _ => ?_) alike_awaitCompletion
      refine Alike.bind (fun _ _ => ?_) alike_awaitInbound
      have hend : Alike (apart sha256 adopts id foreign) (fun _ => True)
          (conclude remote id (buildGraph (summaryNodes summary)) remoteHead) :=
        alike_conclude _ _ _
      cases remoteHead with
      | some head => exact Alike.bind (fun _ _ => hend) (alike_recordPeerHead _ _ _)
      | none => exact hend
    · exact .fail
  · rw [List.mem_singleton.mp hmem]
    trivial

theorem alike_run (hsha : Function.Injective sha256) {deps : SessionDeps}
    (habout : About deps adopts vaultId) :
    Alike (apart sha256 adopts vaultId foreign) (fun _ => True)
      (run 0 deps (fun _ => return ())) := by
  rw [run_eq]
  exact Alike.bind (fun remote _ => alike_exchange hsha habout remote) (alike_handshake deps.auth)

/-! ## Ingesting -/

theorem coupled_putBlob {post : Sha256Hex → Peer → Peer → Prop} (bytes : Bytes)
    (hs : Apart sha256 adopts vaultId foreign s t)
    (hpost : ∀ s' t' : Peer, Apart sha256 adopts vaultId foreign s' t' →
      (∃ b, s'.store.getBlob (sha256 bytes) = some b) →
      (∃ b, t'.store.getBlob (sha256 bytes) = some b) → post (sha256 bytes) s' t') :
    Coupled (apart sha256 adopts vaultId foreign) post (putBlob sha256 bytes) s t := by
  simp only [putBlob, Coupled, Peer.changeStore_eq]
  refine ⟨⟨trivial, trivial, by simp⟩, Store.grows_putBlob _ _ _, Store.grows_putBlob _ _ _,
    ⟨hs.session, hs.heard, hs.headers, hs.stores.putBlob bytes⟩,
    fun s' t' hst hst' hs' => ⟨trivial, ?_⟩⟩
  obtain ⟨b, hb⟩ := Store.getBlob_putBlob sha256 s.store bytes
  obtain ⟨b', hb'⟩ := Store.getBlob_putBlob sha256 t.store bytes
  exact hpost s' t' hs' ⟨b, Store.Grows.blobs hst _ _ hb⟩ ⟨b', Store.Grows.blobs hst' _ _ hb'⟩

theorem alike_firstMissing {ids : List RevisionId} (hids : ∀ id ∈ ids, ¬ foreign id) :
    Alike (apart sha256 adopts vaultId foreign) (fun _ => True) (SyncEngine.firstMissing ids) := by
  induction ids with
  | nil => exact .done trivial
  | cons id rest ih =>
    obtain ⟨hid, hrest⟩ := List.forall_mem_cons.mp hids
    refine Alike.bind (fun found _ => ?_) (alike_query (Q := fun _ => True) fun s t hst =>
      ⟨hst.hasRevision hid, trivial⟩)
    split
    · exact ih hrest
    · exact .done trivial

theorem coupled_saveRevision {revision : Revision} (hs : Apart sha256 adopts vaultId foreign s t)
    (hvault : revision.vaultId = vaultId) (hid : ¬ foreign revision.id)
    (hparents : ∀ p ∈ revision.parentIds, ¬ foreign p)
    (hblob : ∃ bytes, s.store.getBlob revision.hash = some bytes)
    (hblob' : ∃ bytes, t.store.getBlob revision.hash = some bytes) :
    Coupled (apart sha256 adopts vaultId foreign)
      (fun _ s' t' => True ∧ Apart sha256 adopts vaultId foreign s' t')
      (SyncEngine.saveRevision revision) s t := by
  obtain ⟨hsame, hok⟩ := hs.stores.saveRevision hvault hid hparents hblob hblob'
  refine coupled_execute hs hsame (fun e he => ?_) (fun tables tables' h h' =>
    ⟨Tables.grows_saveRevision h, Tables.grows_saveRevision h', hok tables tables' h h'⟩)
    fun s' t' hs' => ⟨trivial, hs'⟩
  rw [List.mem_singleton.mp he]
  trivial

theorem alike_ingestReceivedRevision (deps : EngineDeps) (now : Nat) {input : IngestInput}
    (hvault : input.vaultId = vaultId) (hid : ¬ foreign input.revisionId)
    (hparents : ∀ p ∈ input.declaredParentIds, ¬ foreign p) :
    Alike (apart deps.sha256 adopts vaultId foreign) (fun _ => True)
      (SyncEngine.ingestReceivedRevision deps now input) := by
  refine Alike.bind (fun found _ => ?_) (alike_query (Q := fun _ => True) fun s t hst =>
    ⟨hst.hasRevision hid, trivial⟩)
  split
  · exact .done trivial
  dsimp only
  split
  · exact .done trivial
  refine Alike.bind (fun missing _ => ?_) (alike_firstMissing hparents)
  split
  · exact .done trivial
  intro s t hs
  refine Coupled.bind (coupled_putBlob input.bytes hs fun s' t' hs' hblob hblob' => ?_)
  cases hreceived : receivedRevision
      ⟨input.revisionId, input.vaultId, deps.sha256 input.bytes, input.bytes.length, now,
        input.message⟩ input.declaredParentIds input.fromDeviceId with
  | error error => trivial
  | ok revision =>
    obtain ⟨-, rfl⟩ := receivedRevision_ok hreceived
    simp only [Async.ofExcept_ok, Async.done_bind]
    refine Coupled.bind (Coupled.mono (fun _ _ _ h => ?_)
      (coupled_saveRevision hs' hvault hid hparents hblob hblob'))
    exact h

theorem alike_reject (revisionId : RevisionId) (reason : String) :
    Alike (apart sha256 adopts vaultId foreign) (fun _ => True)
      (onSession 0 (·.reject revisionId reason)) :=
  alike_onSession (fun s => (Session.programStep_reject revisionId reason s).nothingNew)
    (fun s _ hmem => (Session.answer_reject _ _ s.session _ hmem).gives _ _) trivial

theorem alike_ingestNext (deps : EngineDeps) (now : Nat) {inbound : InboundHeader}
    (hkeeps : inbound.header.KeepsTo vaultId foreign) (bytes : Bytes) :
    Alike (apart deps.sha256 adopts vaultId foreign) (fun _ => True)
      (ingestNext 0 deps now inbound bytes) := by
  refine Alike.bind (fun _ _ => ?_) (alike_update (Q := fun _ => True) Session.nothingNew_take
    trivial)
  have hingest : Alike (apart deps.sha256 adopts vaultId foreign) (fun _ => True)
      (ingest 0 deps now inbound bytes) := by
    refine Alike.bind (fun result _ => ?_) (alike_ingestReceivedRevision deps now hkeeps.vaultId
      hkeeps.revisionId hkeeps.parentIds)
    split
    · exact alike_reject _ _
    · exact alike_onSession (Session.nothingNew_accepted _)
        (fun s _ hmem => (Session.answer_accepted _ s.session _ hmem).gives _ _) trivial
  have hreject : Alike (apart deps.sha256 adopts vaultId foreign) (fun _ => True)
      (ingestOrReject 0 deps now inbound bytes) := by
    refine Alike.bind (fun outcome _ => ?_) hingest.attempt
    split
    · exact .done trivial
    · exact alike_reject _ _
  exact Alike.bind (fun _ _ => alike_update (fun _ => .note ⟨rfl, rfl, rfl⟩) trivial)
    hreject.attempt

end SyncSession

/-! ## Whole runs -/

section

variable {sha256 : Bytes → Sha256Hex} {adopts : Bool} {vaultId : VaultId}
  {foreign : RevisionId → Prop} {s t : Peer}

theorem alike_runToEnd (hsha : Function.Injective sha256) {config : SessionDeps}
    (habout : SyncSession.About config adopts vaultId) :
    Alike (apart sha256 adopts vaultId foreign) (fun _ => True) (runToEnd config) :=
  Alike.bind (fun _ _ => alike_update (fun _ => .note ⟨rfl, rfl, rfl⟩) trivial)
    (SyncSession.alike_run hsha habout).attempt

/-- What a control payload may say. -/
def PeerCommand.KeepsTo (adopts : Bool) (vaultId : VaultId) (foreign : RevisionId → Prop) :
    PeerCommand → Prop
  | .control (.ok message) => message.KeepsTo adopts vaultId foreign
  | _ => True

theorem coupled_callback {event : PeerEvent} {f : Session → Session × List Output}
    (hs : Apart sha256 adopts vaultId foreign s t) (hevent : Gives vaultId s.store event)
    (hheard : ∀ message, (f s.session).1.Hears message → message.KeepsTo adopts vaultId foreign)
    (hheaders : ∀ header ∈ (f s.session).1.headers, header.KeepsTo vaultId foreign)
    (hanswer : ∀ output ∈ (f s.session).2, Session.Answer output) :
    Coupled (apart sha256 adopts vaultId foreign) (fun _ _ _ => True) (callback event f) s t := by
  have hsession := hs.session
  refine ⟨⟨?_, rfl, fun e he => ?_⟩, .refl _, .refl _, ⟨?_, hheard, hheaders, hs.stores⟩, trivial⟩
  · dsimp only
    rw [hsession]
  · rcases List.mem_cons.mp he with rfl | he
    · exact hevent
    · obtain ⟨output, hmem, rfl⟩ := List.mem_map.mp he
      exact (hanswer output hmem).gives _ _
  · dsimp only
    rw [hsession]

theorem coupled_control {payload : Except Failure Message}
    (hs : Apart sha256 adopts vaultId foreign s t)
    (hkeeps : (PeerCommand.control payload).KeepsTo adopts vaultId foreign) :
    Coupled (apart sha256 adopts vaultId foreign) (fun _ _ _ => True)
      (callback (.delivered payload) (·.accept payload)) s t := by
  refine coupled_callback hs trivial (fun message hheard => ?_) (fun header hmem => ?_)
    (Session.answer_accept payload s.session)
  · rcases Session.hears_accept hheard with hcomplete | hold | rfl
    · exact Message.keepsTo_complete hcomplete
    · exact hs.heard message hold
    · exact hkeeps
  · rcases List.mem_append.mp ((headers_accept payload s).subset hmem) with hold | hnew
    · exact hs.headers header hold
    · obtain ⟨x, hx, hsome⟩ := List.mem_filterMap.mp hnew
      rw [List.mem_singleton.mp hx] at hsome
      dsimp only at hsome
      split at hsome
      · rename_i heq
        split at hsome
        · cases hsome
          cases heq
          exact hkeeps
        · cases hsome
      · cases hsome

theorem coupled_peerSystem (deps : EngineDeps) (command : PeerCommand)
    (hs : Apart deps.sha256 adopts vaultId foreign s t)
    (hkeeps : command.KeepsTo adopts vaultId foreign) :
    peerSystem deps command t = peerSystem deps command s ∧
      ∀ p, peerSystem deps command s = some p →
        Coupled (apart deps.sha256 adopts vaultId foreign) (fun _ _ _ => True) p s t := by
  have hnote : ∀ f : Session → Session, (∀ s : Session, s.NothingNew (f s)) →
      Coupled (apart deps.sha256 adopts vaultId foreign) (fun _ _ _ => True)
        (SyncSession.update 0 f) s t := fun f hf =>
    (alike_update (Q := fun _ => True) hf trivial s t hs).mono fun _ _ _ _ => trivial
  cases command with
  | control payload =>
    refine ⟨rfl, fun p hp => ?_⟩
    cases hp
    exact coupled_control hs hkeeps
  | bulk frame =>
    refine ⟨rfl, fun p hp => ?_⟩
    cases hp
    have hnew := (Session.steps_acceptBulk frame s.session).nothingNew
    exact coupled_callback hs trivial
      (fun message h => (hnew.heard message h).elim Message.keepsTo_complete (hs.heard message))
      (fun header h => hs.headers header (hnew.headers h)) (Session.answer_acceptBulk frame _)
  | close =>
    refine ⟨rfl, fun p hp => ?_⟩
    cases hp
    have hnew := (Session.programStep_onClose s.session).nothingNew
    exact coupled_callback hs trivial
      (fun message h => (hnew.heard message h).elim Message.keepsTo_complete (hs.heard message))
      (fun header h => hs.headers header (hnew.headers h)) (by simp)
  | timeout =>
    refine ⟨by simp only [peerSystem, hs.session], fun p hp => ?_⟩
    rw [peerSystem] at hp
    split at hp
    · cases hp
      exact hnote _ fun s => (Session.programStep_timeout s).nothingNew
    · cases hp
  | buffered | closeBulk =>
    refine ⟨rfl, fun p hp => ?_⟩
    cases hp
    exact hnote _ fun _ => .note ⟨rfl, rfl, rfl⟩
  | ingestNext now =>
    refine ⟨by simp only [peerSystem, hs.session], fun p hp => ?_⟩
    rw [peerSystem] at hp
    split at hp
    · cases hp
    · obtain ⟨⟨inbound, bytes⟩, hhead, rfl⟩ := Option.map_eq_some_iff.mp hp
      have hmem : inbound.header ∈ s.session.headers := by
        refine List.mem_append_left _ (List.mem_map.mpr ⟨_, List.mem_of_mem_head? hhead, rfl⟩)
      exact (SyncSession.alike_ingestNext deps now (hs.headers _ hmem) bytes s t hs).mono
        fun _ _ _ _ => trivial

end

/-- As long as the peer names no revision of another vault, a session puts out what its own vault
holds, and what it puts out does not depend on the rest of the store. -/
theorem outbound_confined (deps : EngineDeps) (config : SessionDeps) {vaultId : VaultId}
    {moves : List (Move PeerCommand)} {w w' u : Pool Peer PeerEvent Failure}
    {log : List (Peer × PeerEvent)} (hsha : Function.Injective deps.sha256)
    (hw : Starting config w) (hw' : Starting config w')
    (hwf : w.state.store.WellFormed deps.sha256) (hwf' : w'.state.store.WellFormed deps.sha256)
    (hsame : Store.SameVault vaultId w.state.store w'.state.store)
    (hvault : ∀ id, config.vaultId = some id → id = vaultId)
    (hkeeps : ∀ command, .start command ∈ moves → command.KeepsTo config.vaultId.isNone vaultId
      fun id => w.state.store.tables.Foreign vaultId id ∨ w'.state.store.tables.Foreign vaultId id)
    (h : w.record (peerSystem deps) moves = some (u, log)) :
    (∀ x ∈ log, Gives vaultId x.1.store x.2) ∧
      ∃ u' log', w'.record (peerSystem deps) moves = some (u', log') ∧
        log'.map (·.2) = log.map (·.2) := by
  have habout : SyncSession.About config config.vaultId.isNone vaultId :=
    ⟨hvault, fun hnone => by rw [hnone]; rfl⟩
  have hstart : Pool.Coupled (apart deps.sha256 config.vaultId.isNone vaultId fun id =>
      w.state.store.tables.Foreign vaultId id ∨ w'.state.store.tables.Foreign vaultId id) w w' := by
    refine ⟨⟨hw'.1.trans hw.1.symm, fun message hheard => ?_, fun header hmem => ?_, ?_⟩,
      hw'.2.trans hw.2.symm, fun p hp s t _ _ => ?_⟩
    · rw [hw.1] at hheard
      rcases hheard with hmem | hsettled
      · cases hmem
      · cases hsettled
    · rw [hw.1] at hmem
      cases hmem
    · exact ⟨hsame, hwf, hwf', fun _ => .inl, fun _ => .inr⟩
    · rw [hw.2, List.mem_singleton] at hp
      rw [hp]
      refine fun s' t' _ _ hs' => ⟨rfl, ?_⟩
      exact (alike_runToEnd hsha habout s' t' hs').mono fun _ _ _ _ => trivial
  obtain ⟨hgives, u', log', hrecord, hmap, -⟩ := hstart.record
    (fun command s t hcommand hs => coupled_peerSystem deps command hs hcommand) hkeeps h
  exact ⟨hgives, u', log', hrecord, hmap⟩

/-! A desk that syncs its vault `home` with a phone. -/

/-- The headers that a session sends. -/
def sentHeaders (log : List (Peer × PeerEvent)) : List RevisionHeader :=
  log.filterMap fun (_, event) =>
    match event with
    | .output (.control (.revisionHeader header)) => some header
    | _ => none

open SessionEnd in
def homeConfig : SessionDeps := { deskConfig with vaultId := some ⟨"home"⟩ }

def homeStart (store : Store) : Pool Peer PeerEvent Failure :=
  ⟨⟨store, .new⟩, [.await (fun _ => true) (runToEnd homeConfig)]⟩

/-- The vault `home` on a device that has no other. -/
def homeAlone : List Operation :=
  [.importVault ⟨"home"⟩ ⟨⟨"h1"⟩, 1⟩ "home.kdbx" [1] none,
    .recordLocalChange ⟨⟨"h2"⟩, 3⟩ ⟨"home"⟩ [1, 1]]

/-- The phone has nothing of `home`, and asks for one revision. -/
def phoneWants (revisionId : RevisionId) : List (Move PeerCommand) :=
  let told message := Move.start (PeerCommand.control (.ok message))
  [.resume 0, told (.hello protocolVersion ⟨"phone"⟩ "phone" "AA==" "AA=="), .resume 0, .resume 0,
    told (.auth "AA=="), .resume 0, .resume 0, .resume 0, .resume 0,
    told (.vaultSummary ⟨"home"⟩ "Vault" none 0), .resume 0, .resume 0,
    told (.historySummary ⟨"home"⟩ []), .resume 0, told (.wantRevisions ⟨"home"⟩ [revisionId]),
    .resume 0, .resume 0, .resume 0, .resume 0]

def homeHeader : RevisionHeader :=
  ⟨1, ⟨"home"⟩, ⟨"h1"⟩, ⟨"\x01"⟩, 1, [], 1, some "home.kdbx"⟩

theorem injective_plainDeps : Function.Injective plainDeps.sha256 := by
  intro bytes bytes' h
  have hlist := congrArg (fun hash : Sha256Hex => hash.value.toList) h
  simp only [plainDeps, String.toList_ofList] at hlist
  refine List.map_injective_iff.mpr (fun b b' hb => ?_) hlist
  have hvalid : ∀ b : UInt8, (Char.ofNat b.toNat).toNat = b.toNat := by
    intro b
    have hb : b.toNat.isValidChar := .inl (b.toNat_lt.trans (by decide))
    rw [Char.ofNat, dif_pos hb]
    rfl
  have hnat := congrArg Char.toNat hb
  rw [hvalid, hvalid] at hnat
  exact UInt8.toNat.inj hnat

theorem outbound_confined_home :
    ∃ u log, (homeStart (storeAfter twoVaults)).record (peerSystem plainDeps)
        (phoneWants ⟨"h1"⟩) = some (u, log) ∧ sentHeaders log = [homeHeader] ∧
      (∀ x ∈ log, Gives ⟨"home"⟩ x.1.store x.2) ∧
      ∃ u' log', (homeStart (storeAfter homeAlone)).record (peerSystem plainDeps)
          (phoneWants ⟨"h1"⟩) = some (u', log') ∧ log'.map (·.2) = log.map (·.2) := by
  have hplay : ((homeStart (storeAfter twoVaults)).record (peerSystem plainDeps)
      (phoneWants ⟨"h1"⟩)).map (fun run => sentHeaders run.2) = some [homeHeader] := by
    decide +kernel
  obtain ⟨⟨u, log⟩, hrecord, hlog⟩ := Option.map_eq_some_iff.mp hplay
  refine ⟨u, log, hrecord, hlog, outbound_confined plainDeps homeConfig injective_plainDeps
    ⟨rfl, rfl⟩ ⟨rfl, rfl⟩ (wellFormed_storeAfter twoVaults rfl)
    (wellFormed_storeAfter homeAlone rfl) ?_ ?_ ?_ hrecord⟩
  · exact ⟨rfl, rfl, fun _ _ => rfl, fun _ => rfl⟩
  · intro id hid
    cases hid
    rfl
  · intro command hmem
    simp only [phoneWants, List.mem_cons, Move.start.injEq, reduceCtorEq, List.not_mem_nil,
      false_or, or_false] at hmem
    rcases hmem with rfl | rfl | rfl | rfl | rfl
    · trivial
    · trivial
    · intro h
      cases h
    · trivial
    · intro id hid
      rw [List.mem_singleton.mp hid]
      rintro (⟨row, hrow, hother⟩ | ⟨row, hrow, hother⟩)
      · cases hrow
        exact hother rfl
      · cases hrow
        exact hother rfl

/-- Asked for a revision of the vault `work`, the desk sends it. -/
theorem outbound_unconfined :
    ∃ u log, Starting homeConfig (homeStart (storeAfter twoVaults)) ∧
      (storeAfter twoVaults).WellFormed plainDeps.sha256 ∧
      (homeStart (storeAfter twoVaults)).record (peerSystem plainDeps) (phoneWants ⟨"w1"⟩) =
        some (u, log) ∧
      ∃ header ∈ sentHeaders log, header.vaultId = ⟨"work"⟩ ∧
        ¬ ∀ x ∈ log, Gives ⟨"home"⟩ x.1.store x.2 := by
  have hplay : ((homeStart (storeAfter twoVaults)).record (peerSystem plainDeps)
      (phoneWants ⟨"w1"⟩)).map (fun run => (sentHeaders run.2).map (·.vaultId)) =
      some [⟨"work"⟩] := by
    decide +kernel
  obtain ⟨⟨u, log⟩, hrecord, hlog⟩ := Option.map_eq_some_iff.mp hplay
  obtain ⟨header, hmem, hvault⟩ := List.mem_map.mp (hlog ▸ List.mem_singleton_self _)
  refine ⟨u, log, ⟨rfl, rfl⟩, wellFormed_storeAfter twoVaults rfl, hrecord,
    header, hmem, hvault, fun hgives => ?_⟩
  obtain ⟨⟨s, event⟩, hx, hsome⟩ := List.mem_filterMap.mp hmem
  have hevent : event = .output (.control (.revisionHeader header)) := by
    dsimp only at hsome
    split at hsome
    · rw [Option.some.inj hsome]
    · cases hsome
  obtain ⟨revision, hholds, _, _, rfl⟩ := hevent ▸ hgives _ hx
  have hwork : revision.vaultId = ⟨"work"⟩ := hvault
  rw [hholds.vaultId] at hwork
  exact absurd hwork (by decide)

end PassVault
