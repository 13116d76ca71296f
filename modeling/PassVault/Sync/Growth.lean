import PassVault.Sync.Engine

/-!
# The store only grows

Whatever the engine is asked to do, and however its operations interleave, vaults, revision
rows, edges and blobs are never lost or changed, every stored revision has its parents and its
bytes stored, and every head is a stored revision of its vault. So no transaction body fails and
nothing is ever rolled back. The one assumption is that an id generated here is not yet stored.
-/

namespace PassVault

open Async

/-- The stored revision `revisionId` belongs to the vault. -/
def Tables.OfVault (t : Tables) (vaultId : VaultId) (revisionId : RevisionId) : Prop :=
  ∃ row, t.revisions.find revisionId = some row ∧ row.vaultId = vaultId

theorem Tables.OfVault.mono {t t' : Tables} (h : Tables.Grows t t') {vaultId : VaultId}
    {revisionId : RevisionId} (hof : t.OfVault vaultId revisionId) :
    t'.OfVault vaultId revisionId := by
  obtain ⟨row, hrow, hvault⟩ := hof
  exact ⟨row, h.revisions _ _ hrow, hvault⟩

namespace Store

/-- `t` holds everything that `s` holds, and no transaction was rolled back on the way. -/
structure Grows (s t : Store) : Prop where
  tables : Tables.Grows s.tables t.tables
  blobs : ∀ hash bytes, s.getBlob hash = some bytes → t.getBlob hash = some bytes
  kept : t.rolledBack = s.rolledBack

theorem Grows.refl (s : Store) : Grows s s := ⟨.refl _, fun _ _ h => h, rfl⟩

theorem Grows.trans {s t u : Store} (h : Grows s t) (h' : Grows t u) : Grows s u :=
  ⟨h.tables.trans h'.tables, fun hash bytes hb => h'.blobs hash bytes (h.blobs hash bytes hb),
    h'.kept.trans h.kept⟩

theorem not_grows_rollback (s : Store) : ¬ Grows s s.rollback := fun h =>
  Nat.succ_ne_self _ h.kept

theorem grows_bookkeeping {f : Store → Store} (hf : Bookkeeping f) (s : Store) :
    Grows s (f s) := by
  cases hf <;> exact ⟨.refl _, fun _ _ h => h, rfl⟩

theorem grows_setTables {s : Store} {tables : Tables} (h : Tables.Grows s.tables tables) :
    Grows s (s.setTables tables) := ⟨h, fun _ _ h => h, rfl⟩

theorem grows_putBlob (sha256 : Bytes → Sha256Hex) (bytes : Bytes) (s : Store) :
    Grows s (s.putBlob sha256 bytes) := by
  refine ⟨.refl _, fun hash b h => ?_, rfl⟩
  obtain ⟨row, hrow, rfl⟩ := Option.map_eq_some_iff.mp h
  exact Option.map_eq_some_iff.mpr ⟨row, Table.find_insert_of_find hrow, rfl⟩

/-- What the operations keep true of the store. -/
structure WellFormed (sha256 : Bytes → Sha256Hex) (s : Store) : Prop where
  heads : ∀ id vault, s.tables.vaults.find id = some vault →
    ∀ head, vault.headRevisionId = some head → s.tables.OfVault id head
  closed : ∀ x p, s.tables.StoredParent x p →
    s.tables.hasRevision x = true ∧ s.tables.hasRevision p = true
  blobs : ∀ id row, s.tables.revisions.find id = some row →
    ∃ bytes, s.getBlob row.hash = some bytes
  hashes : ∀ hash bytes, s.getBlob hash = some bytes → sha256 bytes = hash

theorem WellFormed.empty (sha256 : Bytes → Sha256Hex) : WellFormed sha256 Store.empty := by
  refine ⟨?_, ?_, ?_, ?_⟩ <;>
    simp [Store.empty, Tables.empty, Tables.StoredParent, Store.getBlob, Table.empty, Table.find]

variable {sha256 : Bytes → Sha256Hex} {s : Store}

theorem WellFormed.putBlob (h : WellFormed sha256 s) (bytes : Bytes) :
    WellFormed sha256 (s.putBlob sha256 bytes) := by
  refine ⟨h.heads, h.closed, fun id row hrow => ?_, fun hash b hb => ?_⟩
  · obtain ⟨b, hb⟩ := h.blobs id row hrow
    exact ⟨b, (grows_putBlob sha256 bytes s).blobs _ _ hb⟩
  · obtain ⟨row, hrow, rfl⟩ := Option.map_eq_some_iff.mp hb
    rw [Store.putBlob, Table.find_insert] at hrow
    split at hrow
    · rename_i hkey
      cases hold : s.blobs.find hash with
      | none =>
        rw [hold] at hrow
        cases hrow
        exact hkey
      | some row' =>
        rw [hold] at hrow
        cases hrow
        exact h.hashes hash _ (Option.map_eq_some_iff.mpr ⟨_, hold, rfl⟩)
    · exact h.hashes hash _ (Option.map_eq_some_iff.mpr ⟨_, hrow, rfl⟩)

theorem getBlob_putBlob (sha256 : Bytes → Sha256Hex) (s : Store) (bytes : Bytes) :
    ∃ b, (s.putBlob sha256 bytes).getBlob (sha256 bytes) = some b := by
  obtain ⟨row, hrow⟩ := Table.has_iff.mp (Table.has_insert s.blobs (sha256 bytes, bytes))
  exact ⟨row.2, Option.map_eq_some_iff.mpr ⟨row, hrow, rfl⟩⟩

theorem WellFormed.saveRevision (h : WellFormed sha256 s) {revision : Revision}
    (hblob : ∃ bytes, s.getBlob revision.hash = some bytes) {tables : Tables}
    (hsave : Tables.saveRevision revision s.tables = .ok tables) :
    WellFormed sha256 (s.setTables tables) := by
  have hgrows := Tables.grows_saveRevision hsave
  obtain ⟨hparents, -, rfl⟩ := Tables.saveRevision_ok hsave
  refine ⟨fun id vault hvault head hhead => (h.heads id vault hvault head hhead).mono hgrows,
    fun x p hp => ?_, fun id row hrow => ?_, h.hashes⟩
  · rcases Tables.storedParent_insertParents.mp hp with hold | ⟨rfl, hnew⟩
    · exact ⟨hgrows.hasRevision (h.closed x p hold).1, hgrows.hasRevision (h.closed x p hold).2⟩
    · exact ⟨Table.has_insert s.tables.revisions revision.row,
        hgrows.hasRevision (hparents p hnew)⟩
  · have hmem := Table.mem_of_find hrow
    have hid := Table.key_of_find hrow
    rcases Table.mem_insert hmem with hmem | ⟨rfl, -⟩
    · exact h.blobs id row (hid ▸ Table.find_of_mem hmem)
    · exact hblob

theorem WellFormed.saveVault (h : WellFormed sha256 s) {vault : Vault}
    (hhead : ∀ head, vault.headRevisionId = some head → s.tables.OfVault vault.id head) :
    WellFormed sha256 (s.setTables (s.tables.saveVault vault)) := by
  refine ⟨fun id row hrow head hh => ?_, h.closed, h.blobs, h.hashes⟩
  rw [Store.setTables, Tables.saveVault, Table.find_upsert] at hrow
  split at hrow
  · rename_i hid
    cases hid
    cases hold : s.tables.vaults.find vault.id with
    | none =>
      rw [hold] at hrow
      cases hrow
      exact hhead head hh
    | some old =>
      rw [hold] at hrow
      cases hrow
      exact hhead head hh
  · exact h.heads id row hrow head hh

/-- Statements that leave vaults and history alone keep the store well formed. -/
theorem WellFormed.other (h : WellFormed sha256 s) {tables : Tables}
    (hvaults : tables.vaults = s.tables.vaults) (hrevisions : tables.revisions = s.tables.revisions)
    (hparents : tables.revisionParents = s.tables.revisionParents) :
    WellFormed sha256 (s.setTables tables) := by
  refine ⟨fun id vault hvault head hhead => ?_, fun x p hp => ?_, fun id row hrow => ?_, h.hashes⟩
  · obtain ⟨row, hrow⟩ := h.heads id vault (hvaults ▸ hvault) head hhead
    exact ⟨row, by rw [Store.setTables]; simpa [hrevisions] using hrow⟩
  · have := h.closed x p (by simpa [Tables.StoredParent, Store.setTables, hparents] using hp)
    simpa [Tables.hasRevision, Store.setTables, hrevisions] using this
  · exact h.blobs id row (by simpa [Store.setTables, hrevisions] using hrow)

/-- After a revision under a new id is saved, its row is the one stored. -/
theorem find_saveRevision {revision : Revision} {t t' : Tables}
    (hsave : Tables.saveRevision revision t = .ok t') (hfresh : t.hasRevision revision.id = false) :
    t'.revisions.find revision.id = some revision.row := by
  obtain ⟨-, -, rfl⟩ := Tables.saveRevision_ok hsave
  have hnone : t.revisions.find revision.id = none := by
    simpa [Tables.hasRevision, Table.has] using hfresh
  show (t.revisions.insert revision.row).find revision.id = _
  rw [Table.find_insert, Revision.row_id, if_pos rfl, hnone]
  rfl

end Store

namespace SyncEngine

variable {σ ω ε : Type} [EngineState σ ω ε] (deps : EngineDeps)

/-- Ids generated on this device are new when they are stored. -/
def FreshIds (s : σ) (e : ε) : Prop :=
  ∀ revision, e = event σ (.saved revision) → revision.operation ≠ .received →
    (store s).tables.hasRevision revision.id = false

/-- The store stays well formed and grows. -/
def growth : Contract σ ε where
  inv s := (store s).WellFormed deps.sha256
  rely s t := (store s).Grows (store t)
  guar s _ t := (store s).Grows (store t)
  given _ _ := True
  cond := FreshIds
  prop _ _ := True
  prompt _ := False

theorem growth_storeContract : StoreContract (growth deps : Contract σ ε) where
  idle _ _ := .refl _
  quiet := by
    intro f hf s hinv _
    simp only [growth, store_changeStore]
    refine ⟨Store.grows_bookkeeping hf _, ?_⟩
    cases hf <;> exact ⟨hinv.heads, hinv.closed, hinv.blobs, hinv.hashes⟩

/-- A program that keeps the store growing, whatever it returns or throws. -/
abbrev KeepsGrowth {α : Type} (p : Async σ ε Failure α) : Prop :=
  ∀ s, (store s).WellFormed deps.sha256 →
    Safe (growth deps) (fun _ _ => True) (fun _ _ => True) p s

/-! ## Accesses -/

section Accesses

variable {deps} {α : Type} {post : α → σ → Prop} {exc : Failure → σ → Prop} {s : σ}

/-- A vault row as it was read. -/
structure VaultRead (vaultId : VaultId) (vault : Vault) (s : Store) : Prop where
  id : vault.id = vaultId
  stored : s.tables.vaults.has vaultId = true
  head : ∀ head, vault.headRevisionId = some head → s.tables.OfVault vaultId head

theorem VaultRead.mono {s t : Store} {vaultId : VaultId} {vault : Vault}
    (h : VaultRead vaultId vault s) (hst : s.Grows t) : VaultRead vaultId vault t :=
  ⟨h.id, hst.tables.vaults _ h.stored, fun head hh => (h.head head hh).mono hst.tables⟩

theorem vaultRead {s : Store} (hinv : s.WellFormed deps.sha256) {vaultId : VaultId}
    {vault : Vault} (h : s.tables.getVault vaultId = some vault) : VaultRead vaultId vault s :=
  ⟨Table.key_of_find h, Table.has_iff.mpr ⟨vault, h⟩, fun head hh => hinv.heads _ _ h head hh⟩

theorem growth_requireVault {vaultId : VaultId} {post : Vault → σ → Prop}
    (hinv : (store s).WellFormed deps.sha256)
    (h : ∀ vault t, (store s).tables.getVault vaultId = some vault → (store s).Grows (store t) →
      (store t).WellFormed deps.sha256 → VaultRead vaultId vault (store t) → post vault t) :
    Safe (growth deps) post (fun _ _ => True) (requireVault vaultId) s := by
  refine Safe.bind (safe_query (growth_storeContract deps) hinv fun t hst hinvt => ?_)
  cases hget : (store s).tables.getVault vaultId with
  | some vault => exact h vault t hget hst hinvt ((vaultRead hinv hget).mono hst)
  | none => trivial

theorem growth_requireRevision {revisionId : RevisionId} {post : Revision → σ → Prop}
    (hinv : (store s).WellFormed deps.sha256)
    (h : ∀ revision t, (store s).tables.getRevision revisionId = some revision →
      (store s).Grows (store t) → (store t).WellFormed deps.sha256 →
      (store t).tables.OfVault revision.vaultId revision.id → post revision t) :
    Safe (growth deps) post (fun _ _ => True) (requireRevision revisionId) s := by
  refine Safe.bind (safe_query (growth_storeContract deps) hinv fun t hst hinvt => ?_)
  cases hget : (store s).tables.getRevision revisionId with
  | some revision =>
    refine h revision t hget hst hinvt ?_
    obtain ⟨row, hrow, rfl⟩ := Tables.getRevision_eq_some.mp hget
    exact ⟨row, hst.tables.revisions _ _ (Table.key_of_find hrow ▸ hrow), rfl⟩
  | none => trivial

theorem growth_putBlob {bytes : Bytes} {post : Sha256Hex → σ → Prop}
    (hinv : (store s).WellFormed deps.sha256)
    (h : ∀ t, (store s).Grows (store t) → (store t).WellFormed deps.sha256 →
      (∃ b, (store t).getBlob (deps.sha256 bytes) = some b) → post (deps.sha256 bytes) t) :
    Safe (growth deps) post exc (putBlob deps.sha256 bytes) s := by
  refine safe_putBlob fun _ => ?_
  have hgrows := Store.grows_putBlob deps.sha256 bytes (store s)
  simp only [growth, store_changeStore]
  refine ⟨hgrows, hinv.putBlob bytes, fun t hst hinvt => h t (hgrows.trans hst) hinvt ?_⟩
  obtain ⟨b, hb⟩ := Store.getBlob_putBlob deps.sha256 (store s) bytes
  exact ⟨b, hst.blobs _ _ hb⟩

theorem growth_getBlob {hash : Sha256Hex} {post : Bytes → σ → Prop}
    (hinv : (store s).WellFormed deps.sha256)
    (h : ∀ bytes t, (store s).Grows (store t) → (store t).WellFormed deps.sha256 → post bytes t) :
    Safe (growth deps) post (fun _ _ => True) (getBlob hash) s :=
  safe_getBlob (growth_storeContract deps) hinv (fun bytes _ t hst hinvt => h bytes t hst hinvt)
    fun _ _ _ _ _ => trivial

theorem growth_query {f : Tables → α} (hinv : (store s).WellFormed deps.sha256)
    (h : ∀ t, (store s).Grows (store t) → (store t).WellFormed deps.sha256 →
      post (f (store s).tables) t) :
    Safe (growth deps) post exc (query f) s :=
  safe_query (growth_storeContract deps) hinv h

/-- A revision whose parents, vault and bytes are stored is saved. -/
theorem growth_saveRevision {revision : Revision} {post : Unit → σ → Prop}
    (hinv : (store s).WellFormed deps.sha256)
    (hblob : ∃ bytes, (store s).getBlob revision.hash = some bytes)
    (h : ∀ t, (store t).WellFormed deps.sha256 → (store s).Grows (store t) →
      (revision.operation ≠ .received → (store t).tables.OfVault revision.vaultId revision.id) →
      post () t)
    (hfail : (∀ e, Tables.saveRevision revision (store s).tables ≠ .error e) ∨
      ∀ e t, exc e t) :
    Safe (growth deps) post exc (saveRevision revision) s := by
  refine safe_execute (growth_storeContract deps) hinv
    (fun tables hsave hcond => ⟨fun _ _ => trivial, fun _ => ?_⟩) fun e he t _ _ => ?_
  · have hgrows := Store.grows_setTables (s := store s) (Tables.grows_saveRevision hsave)
    simp only [growth, store_changeStore]
    refine ⟨hgrows, hinv.saveRevision hblob hsave, fun t hst hinvt => ?_⟩
    refine h t hinvt (hgrows.trans hst) fun hlocal => ?_
    have hfresh := hcond _ (List.mem_singleton.mpr rfl) revision rfl hlocal
    exact ⟨revision.row, hst.tables.revisions _ _ (Store.find_saveRevision hsave hfresh), rfl⟩
  · rcases hfail with hfail | hfail
    · exact absurd he (hfail e)
    · exact hfail e t

theorem growth_saveVault {vault : Vault} {why : VaultWrite ω} {post : Unit → σ → Prop}
    (hinv : (store s).WellFormed deps.sha256)
    (hhead : ∀ head, vault.headRevisionId = some head →
      (store s).tables.OfVault vault.id head)
    (h : ∀ t, (store t).WellFormed deps.sha256 → (store s).Grows (store t) →
      (store t).tables.vaults.has vault.id = true → post () t) :
    Safe (growth deps) post exc (saveVault vault why) s := by
  refine safe_execute (growth_storeContract deps) hinv
    (fun tables hsave _ => ⟨fun _ _ => trivial, fun _ => ?_⟩) fun e he => by cases he
  cases hsave
  have hgrows := Store.grows_setTables (s := store s) (Tables.grows_saveVault vault _)
  simp only [growth, store_changeStore]
  refine ⟨hgrows, hinv.saveVault hhead, fun t hst hinvt => ?_⟩
  exact h t hinvt (hgrows.trans hst) (hst.tables.vaults _ (Tables.has_saveVault vault _))

theorem growth_appendHeadEvent {headEvent : HeadRevisionEvent} {post : Unit → σ → Prop}
    (hinv : (store s).WellFormed deps.sha256)
    (hvault : (store s).tables.vaults.has headEvent.vaultId = true)
    (h : ∀ t, (store t).WellFormed deps.sha256 → (store s).Grows (store t) → post () t) :
    Safe (growth deps) post exc (appendHeadEvent headEvent) s := by
  refine safe_execute (growth_storeContract deps) hinv
    (fun tables hsave _ => ⟨fun _ _ => trivial, fun _ => ?_⟩) fun e he => ?_
  · have hgrows := Store.grows_setTables (s := store s) (Tables.grows_appendHeadEvent hsave)
    rw [Tables.appendHeadEvent, if_pos hvault] at hsave
    cases hsave
    simp only [growth, store_changeStore]
    exact ⟨hgrows, hinv.other rfl rfl rfl, fun t hst hinvt =>
      h t hinvt (hgrows.trans hst)⟩
  · rw [Tables.appendHeadEvent, if_pos hvault] at he
    cases he

end Accesses

/-! ## Operations -/

section Operations

variable {deps} {s : σ}

/-- The transactions of the engine: their bodies never throw. -/
theorem growth_transaction {α : Type} {body : Async σ ε Failure α}
    (hinv : (store s).WellFormed deps.sha256)
    (hbody : ∀ t, (store s).Grows (store t) → (store t).WellFormed deps.sha256 →
      Safe (growth deps) (fun _ _ => True) (fun _ _ => False) body t) :
    Safe (growth deps) (fun _ _ => True) (fun _ _ => True) (transaction body) s :=
  safe_transaction (growth_storeContract deps) (fun _ h => h) hinv (fun t => (store s).Grows (store t))
    (.refl _) (fun _ _ hst htu _ => hst.trans htu)
    (fun f hf t hst => by
      rw [store_changeStore]
      exact hst.trans (Store.grows_bookkeeping hf _))
    hbody (fun _ _ _ h _ _ => h) (fun _ _ h => h.elim) fun _ _ h => h.elim

theorem importVault_growth (vaultId : VaultId) (stamp : Stamp) (name : String) (bytes : Bytes)
    (kdbxPath : Option FilePath) :
    KeepsGrowth deps (importVault deps vaultId stamp name bytes kdbxPath :
      Async σ ε Failure (Vault × Revision)) := by
  intro s hinv
  refine Safe.bind (growth_putBlob hinv fun t _ hinv hblob => growth_transaction hinv ?_)
  intro u htu hinv
  refine Safe.bind (growth_saveVault hinv (by simp) fun v hinv huv hvault => ?_)
  have hblob : ∃ b, (store v).getBlob (deps.sha256 bytes) = some b :=
    hblob.imp fun b hb => (htu.trans huv).blobs _ _ hb
  refine Safe.bind (growth_saveRevision hinv hblob (fun w hinv hvw hof => ?_) (Or.inl ?_))
  · have hof := hof (by simp [importedRevision, RevisionSeed.base])
    refine Safe.bind (growth_saveVault hinv ?_ fun x hinv _ hvault => ?_)
    · rintro head ⟨⟩
      exact hof
    · exact Safe.bind (growth_appendHeadEvent hinv hvault fun _ _ _ => trivial)
  · intro e he
    rw [Tables.saveRevision_of_stored (by simp [importedRevision, RevisionSeed.base]) hvault] at he
    cases he

theorem headWithHash_growth (headRevisionId : Option RevisionId) (hash : Sha256Hex)
    {post : Option RevisionId → σ → Prop} (hinv : (store s).WellFormed deps.sha256)
    (h : ∀ found t, (store s).Grows (store t) → (store t).WellFormed deps.sha256 →
      post found t) :
    Safe (growth deps) post (fun _ _ => True) (headWithHash headRevisionId hash) s := by
  cases headRevisionId with
  | none => exact h none s (.refl _) hinv
  | some headRevisionId =>
    refine Safe.bind (growth_query hinv fun t hst hinvt => ?_)
    split <;> exact h _ t hst hinvt

/-- Reporting an event leaves the store alone. -/
theorem growth_report {e : EngineEvent ω} {post : Unit → σ → Prop}
    (hinv : (store s).WellFormed deps.sha256)
    (h : ∀ t, store t = store s → (store t).WellFormed deps.sha256 → post () t) :
    Safe (growth deps) post (fun _ _ => True) (report e) s := by
  have hnote := store_changeStore id [event σ e] s
  refine fun _ => ⟨fun _ _ => trivial, fun _ => ⟨?_, ?_, h _ hnote ?_⟩⟩
  all_goals simp only [growth, hnote, id]
  · exact .refl _
  all_goals exact hinv

theorem recordLocalChange_growth (stamp : Stamp) (vaultId : VaultId) (bytes : Bytes)
    (origin : ω) :
    KeepsGrowth deps (recordLocalChange deps stamp vaultId bytes origin :
      Async σ ε Failure LocalChangeResult) := by
  intro s hinv
  refine Safe.bind (growth_report hinv fun s _ hinv => ?_)
  refine Safe.bind (growth_requireVault hinv fun vault t _ _ hinv hread => ?_)
  refine Safe.bind (headWithHash_growth _ _ hinv fun found u htu hinv => ?_)
  cases found with
  | some revisionId => exact Safe.bind (growth_report hinv fun _ _ _ => trivial)
  | none =>
    refine Safe.bind (growth_putBlob hinv fun v huv hinv hblob => growth_transaction hinv ?_)
    intro w hvw hinv
    have hread : VaultRead vaultId vault (store w) := hread.mono (htu.trans (huv.trans hvw))
    have hblob : ∃ b, (store w).getBlob (deps.sha256 bytes) = some b :=
      hblob.imp fun b hb => hvw.blobs _ _ hb
    refine Safe.bind (growth_saveRevision hinv hblob (fun x hinv hwx hof => ?_) (Or.inl ?_))
    · have hof := hof (by simp [localChangeRevision, RevisionSeed.base])
      refine Safe.bind (growth_saveVault hinv ?_ fun y hinv hxy _ => ?_)
      · rintro head ⟨⟩
        exact hread.id ▸ hof
      · have hvault := (hread.mono (hwx.trans hxy)).stored
        exact Safe.bind (growth_appendHeadEvent hinv hvault fun _ _ _ => trivial)
    · intro e he
      rw [Tables.saveRevision_of_stored ?_ hread.stored] at he
      · cases he
      · intro p hp
        obtain ⟨row, hrow, -⟩ := hread.head p (Option.mem_toList.mp hp)
        exact Table.has_iff.mpr ⟨row, hrow⟩

theorem firstMissing_growth (ids : List RevisionId) {post : Option RevisionId → σ → Prop}
    (hinv : (store s).WellFormed deps.sha256)
    (h : ∀ found t, (store s).Grows (store t) → (store t).WellFormed deps.sha256 →
      (found = none → ∀ p ∈ ids, (store t).tables.hasRevision p = true) → post found t) :
    Safe (growth deps) post (fun _ _ => True) (firstMissing ids) s := by
  induction ids generalizing s with
  | nil => exact h none s (.refl _) hinv (by simp)
  | cons parentId rest ih =>
    refine Safe.bind (growth_query hinv fun t hst hinvt => ?_)
    split
    · rename_i hhas
      refine ih hinvt fun found u htu hinvu hall => h found u (hst.trans htu) hinvu fun hnone => ?_
      rw [List.forall_mem_cons]
      exact ⟨(hst.trans htu).tables.hasRevision hhas, hall hnone⟩
    · exact h _ t hst hinvt (by simp)

theorem ofExcept_growth {α : Type} {result : Except Failure α} {post : α → σ → Prop}
    (h : ∀ a, result = .ok a → post a s) :
    Safe (growth deps) post (fun _ _ => True) (Async.ofExcept result) s := by
  cases result with
  | ok a => exact h a rfl
  | error e => trivial

theorem ingestReceivedRevision_growth (now : Nat) (input : IngestInput) :
    KeepsGrowth deps (ingestReceivedRevision deps now input :
      Async σ ε Failure IngestResult) := by
  intro s hinv
  refine Safe.bind (growth_query hinv fun t _ hinv => ?_)
  split
  · trivial
  · dsimp only
    split
    · trivial
    · refine Safe.bind (firstMissing_growth _ hinv fun found u _ hinv _ => ?_)
      cases found with
      | some parentId => trivial
      | none =>
        refine Safe.bind (growth_putBlob hinv fun v _ hinv hblob => ?_)
        refine Safe.bind (ofExcept_growth fun revision hrevision => ?_)
        obtain ⟨-, rfl⟩ := receivedRevision_ok hrevision
        exact Safe.bind (growth_saveRevision hinv hblob (fun _ _ _ _ => trivial)
          (Or.inr fun _ _ => trivial))

theorem requireRevisions_growth (ids : List RevisionId) {post : List Revision → σ → Prop}
    (hinv : (store s).WellFormed deps.sha256)
    (h : ∀ revisions t, (store s).Grows (store t) → (store t).WellFormed deps.sha256 →
      post revisions t) :
    Safe (growth deps) post (fun _ _ => True) (requireRevisions ids) s := by
  refine fun _ => ⟨by simp, fun _ => ⟨.refl _, hinv, fun t hst hinvt =>
    ⟨fun _ => rfl, fun _ => ?_⟩⟩⟩
  split
  · trivial
  · exact h _ t hst hinvt

theorem incomingBytes_growth (revisions : List Revision)
    {post : List (RevisionId × Bytes) → σ → Prop} (hinv : (store s).WellFormed deps.sha256)
    (h : ∀ found t, (store s).Grows (store t) → (store t).WellFormed deps.sha256 →
      post found t) :
    Safe (growth deps) post (fun _ _ => True) (incomingBytes revisions) s := by
  induction revisions generalizing s post with
  | nil => exact h [] s (.refl _) hinv
  | cons revision rest ih =>
    refine Safe.bind (growth_getBlob hinv fun bytes t hst hinvt => ?_)
    exact Safe.bind (ih hinvt fun found u htu hinvu => h _ u (hst.trans htu) hinvu)

theorem merge_growth (stamp : Stamp) (vaultId : VaultId) (baseRevisionId : RevisionId)
    (incomingRevisionIds : List RevisionId) (message : Option String) :
    KeepsGrowth deps (merge deps stamp vaultId baseRevisionId incomingRevisionIds message :
      Async σ ε Failure MergeOutcome) := by
  intro s hinv
  refine Safe.bind (growth_requireRevision hinv fun base t _ _ hinv _ => ?_)
  refine Safe.bind (requireRevisions_growth _ hinv fun incoming u _ hinv => ?_)
  refine Safe.bind (growth_getBlob hinv fun baseBytes v _ hinv => ?_)
  refine Safe.bind (incomingBytes_growth _ hinv fun found w _ hinv => ?_)
  split
  · trivial
  · trivial
  · refine Safe.bind (growth_putBlob hinv fun x _ hinv hblob => ?_)
    refine Safe.bind (ofExcept_growth fun revision hrevision => ?_)
    have hhash : revision = _ := mergedRevision_ok hrevision
    refine Safe.bind (growth_saveRevision hinv ?_ (fun _ _ _ _ => trivial)
      (Or.inr fun _ _ => trivial))
    rw [hhash]
    exact hblob

theorem commitHeadMove_growth {vault next : Vault} {revisionId : RevisionId}
    {headEvent : HeadRevisionEvent} {origin : Option ω} {now : Nat} {reason : HeadReason}
    (hinv : (store s).WellFormed deps.sha256)
    (hof : (store s).tables.OfVault vault.id revisionId)
    (hmove : (next, headEvent) = moveHead vault revisionId now reason) :
    Safe (growth deps) (fun _ _ => True) (fun _ _ => True)
      (commitHeadMove next headEvent origin) s := by
  cases hmove
  refine growth_transaction hinv fun t hst hinv => ?_
  refine Safe.bind (growth_saveVault hinv ?_ fun u hinv htu hvault => ?_)
  · rintro head ⟨⟩
    exact hof.mono hst.tables
  · exact Safe.bind (growth_appendHeadEvent hinv hvault fun _ _ _ => trivial)

theorem promote_growth (now : Nat) (vaultId : VaultId) (revisionId : RevisionId) :
    KeepsGrowth deps (promote now vaultId revisionId : Async σ ε Failure Vault) := by
  intro s hinv
  refine Safe.bind (growth_requireVault hinv fun vault t _ _ hinv _ => ?_)
  refine Safe.bind (growth_requireRevision hinv fun revision u _ _ hinv hof => ?_)
  refine Safe.bind (ofExcept_growth fun move hmove => ?_)
  obtain ⟨hvault, hmove⟩ := moved_ok hmove
  exact commitHeadMove_growth hinv (hvault ▸ hof) hmove

theorem fastForward_growth (now : Nat) (vaultId : VaultId) (revisionId : RevisionId) (origin : ω) :
    KeepsGrowth deps (fastForward now vaultId revisionId origin : Async σ ε Failure Vault) := by
  intro s hinv
  refine Safe.bind (growth_report hinv fun s _ hinv => ?_)
  refine Safe.bind (growth_requireVault hinv fun vault t _ _ hinv _ => ?_)
  refine Safe.bind (growth_requireRevision hinv fun revision u _ _ hinv hof => ?_)
  refine Safe.bind (ofExcept_growth fun move hmove => ?_)
  obtain ⟨hvault, hmove⟩ := moved_ok hmove
  exact commitHeadMove_growth hinv (hvault ▸ hof) hmove

theorem adoptVault_growth (now : Nat) (vaultId : VaultId) (name : String) :
    KeepsGrowth deps (adoptVault now vaultId name : Async σ ε Failure Vault) := by
  intro s hinv
  refine Safe.bind (growth_query hinv fun t _ hinv => ?_)
  split
  · trivial
  · exact Safe.bind (growth_saveVault hinv (by simp) fun _ _ _ _ => trivial)

/-- Binding writes back the row it read, head included. -/
theorem bindVaultToFile_growth (vaultId : VaultId) (kdbxPath : FilePath) :
    KeepsGrowth deps (bindVaultToFile vaultId kdbxPath : Async σ ε Failure Vault) := by
  intro s hinv
  refine Safe.bind (growth_requireVault hinv fun vault t _ _ hinv hread => ?_)
  refine Safe.bind (growth_saveVault hinv (fun head hhead => ?_) fun _ _ _ _ => trivial)
  exact hread.id ▸ hread.head head hhead

end Operations

end SyncEngine

end PassVault
