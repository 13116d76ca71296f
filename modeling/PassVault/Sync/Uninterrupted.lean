import PassVault.Sync.Growth

/-!
# Calls that nothing interrupts

The operations of the engine one after the other, each to completion on the bare store. A
contract says what it needs of the rows and blobs that calls store; each operation then keeps it
when what it would store is admitted.
-/

namespace PassVault

open Async

instance : EngineState Store Unit (EngineEvent Unit) where
  store s := s
  setStore s _ := s
  note _ s := s
  store_setStore _ _ := rfl
  event e := e

@[simp] theorem store_self (s : Store) : store s = s := rfl

namespace SyncEngine

/-- The same revisions are stored. -/
def SameRevisions (s t : Store) : Prop := t.tables.revisions = s.tables.revisions

theorem SameRevisions.not_stored {s t : Store} (h : SameRevisions s t) {id : RevisionId}
    (hs : s.tables.hasRevision id = false) : t.tables.hasRevision id = false := by
  rw [Tables.hasRevision, h]
  exact hs

theorem SameRevisions.trans' {s t u : Store} (h : SameRevisions s t) (h' : SameRevisions t u) :
    SameRevisions s u := Eq.trans h' h

/-- What calls may store. -/
structure Admission where
  vault : VaultId → Prop
  revision : Revision → Store → Prop
  blob : Bytes → Prop

/-- A contract for calls that nothing interrupts, kept by whatever is admitted. -/
structure Uninterrupted (deps : EngineDeps) (c : Contract Store (EngineEvent Unit))
    (a : Admission) : Prop extends StoreContract c where
  alone : ∀ s t, c.rely s t ↔ s = t
  every : ∀ s e, c.cond s e
  wellFormed : ∀ s, c.inv s → s.WellFormed deps.sha256
  given : ∀ s t, s.Grows t → t.WellFormed deps.sha256 → c.given s t
  fresh : ∀ s e, c.prop s e → FreshIds s e
  eager : ∀ s, ¬ c.prompt s
  grows : ∀ s t, c.given s t → s.Grows t
  same : ∀ revision s t, SameRevisions s t → a.revision revision s → a.revision revision t
  stored : ∀ s vaultId, c.inv s → s.tables.vaults.has vaultId = true → a.vault vaultId
  prop : ∀ s e, (∀ revision, e = .saved revision → a.revision revision s) → c.prop s e
  report : ∀ s e, c.guar s [e] s
  saveVault : ∀ s vault events, c.inv s → a.vault vault.id →
    c.given s (s.setTables (s.tables.saveVault vault)) →
    c.guar s events (s.setTables (s.tables.saveVault vault)) ∧
      c.inv (s.setTables (s.tables.saveVault vault))
  appendHeadEvent : ∀ s headEvent tables, c.inv s →
    Tables.appendHeadEvent headEvent s.tables = .ok tables → c.given s (s.setTables tables) →
    c.guar s [] (s.setTables tables) ∧ c.inv (s.setTables tables)
  saveRevision : ∀ s revision tables events, c.inv s → a.revision revision s →
    Tables.saveRevision revision s.tables = .ok tables → c.given s (s.setTables tables) →
    c.guar s events (s.setTables tables) ∧ c.inv (s.setTables tables)
  putBlob : ∀ s bytes, c.inv s → a.blob bytes → c.given s (s.putBlob deps.sha256 bytes) →
    c.guar s [] (s.putBlob deps.sha256 bytes) ∧ c.inv (s.putBlob deps.sha256 bytes)

section Accesses

variable {deps : EngineDeps} {c : Contract Store (EngineEvent Unit)} {a : Admission} {α : Type}
  {post : α → Store → Prop} {exc : Failure → Store → Prop} {s : Store}

theorem alone_query {f : Tables → α} (hc : Uninterrupted deps c a) (hinv : c.inv s)
    (h : post (f s.tables) s) : Safe c post exc (query f) s :=
  safe_query hc.toStoreContract hinv fun t hst _ => (hc.alone s t).mp hst ▸ h

theorem alone_execute {f : Tables → Except Failure Tables} {events : List (EngineEvent Unit)}
    {post : Unit → Store → Prop} (hc : Uninterrupted deps c a) (hinv : c.inv s)
    (hprop : ∀ e ∈ events, c.prop s e)
    (hok : ∀ tables, f s.tables = .ok tables → c.given s (s.setTables tables) →
      c.guar s events (s.setTables tables) ∧ c.inv (s.setTables tables))
    (hpost : ∀ tables, f s.tables = .ok tables → c.inv (s.setTables tables) →
      post () (s.setTables tables)) :
    Safe c post (fun _ _ => True) (execute f events) s := by
  refine safe_execute hc.toStoreContract hinv (fun tables hf _ => ⟨hprop, fun hgiven => ?_⟩)
    fun _ _ _ _ _ => trivial
  obtain ⟨hguar, hinvt⟩ := hok tables hf hgiven
  exact ⟨hguar, hinvt, fun t hst _ => (hc.alone _ t).mp hst ▸ hpost tables hf hinvt⟩

theorem alone_saveVault {vault : Vault} {why : VaultWrite Unit} {post : Unit → Store → Prop}
    (hc : Uninterrupted deps c a) (hinv : c.inv s) (hvault : a.vault vault.id)
    (hpost : ∀ t, c.inv t → SameRevisions s t → post () t) :
    Safe c post (fun _ _ => True) (saveVault vault why) s := by
  refine alone_execute hc hinv ?_ (fun tables hf hgiven => ?_) fun tables hf hinvt => ?_
  · intro e he
    rw [List.mem_singleton.mp he]
    exact hc.prop _ _ (by simp [event])
  · cases hf
    exact hc.saveVault s vault _ hinv hvault hgiven
  · cases hf
    exact hpost _ hinvt rfl

theorem alone_appendHeadEvent {headEvent : HeadRevisionEvent} {post : Unit → Store → Prop}
    (hc : Uninterrupted deps c a) (hinv : c.inv s) (hpost : ∀ t, c.inv t → post () t) :
    Safe c post (fun _ _ => True) (appendHeadEvent headEvent) s :=
  alone_execute hc hinv (by simp) (fun tables hf => hc.appendHeadEvent s headEvent tables hinv hf)
    fun _ _ hinvt => hpost _ hinvt

theorem alone_saveRevision {revision : Revision} {post : Unit → Store → Prop}
    (hc : Uninterrupted deps c a) (hinv : c.inv s) (hrevision : a.revision revision s)
    (hpost : ∀ t, c.inv t → post () t) :
    Safe c post (fun _ _ => True) (saveRevision revision) s := by
  refine alone_execute hc hinv ?_
    (fun tables hf => hc.saveRevision s revision tables _ hinv hrevision hf)
    fun _ _ hinvt => hpost _ hinvt
  intro e he
  rw [List.mem_singleton.mp he]
  apply hc.prop _ _
  intro revision' hsaved
  cases hsaved
  exact hrevision

/-- The body of a transaction starts with the revisions there are. -/
theorem alone_transaction {body : Async Store (EngineEvent Unit) Failure α}
    (hc : Uninterrupted deps c a) (hinv : c.inv s)
    (hbody : ∀ t, c.inv t → SameRevisions s t →
      Safe c (fun _ _ => True) (fun _ _ => True) body t) :
    Safe c (fun _ _ => True) (fun _ _ => True) (transaction body) s :=
  safe_transaction hc.toStoreContract hc.eager hinv (SameRevisions s) rfl
    (fun t u hst htu _ => (hc.alone t u).mp htu ▸ hst) (fun f hf t hst => by cases hf <;> exact hst)
    (fun t hst hinvt => hbody t hinvt hst) (fun _ _ _ _ _ _ => trivial) (fun _ _ _ => trivial)
    fun _ t _ hgiven => Store.not_grows_rollback t (hc.grows _ _ hgiven)

theorem alone_report {e : EngineEvent Unit} {post : Unit → Store → Prop}
    (hc : Uninterrupted deps c a) (hinv : c.inv s) (he : ∀ revision, e ≠ .saved revision)
    (h : post () s) : Safe c post exc (report e) s := by
  refine fun _ => ⟨fun e' he' => ?_, fun _ => ⟨hc.report s e, hinv, h⟩⟩
  rw [List.mem_singleton.mp he']
  exact hc.prop s e fun revision hsaved => absurd hsaved (he revision)

theorem alone_putBlob {bytes : Bytes} {post : Sha256Hex → Store → Prop}
    (hc : Uninterrupted deps c a) (hinv : c.inv s) (hblob : a.blob bytes)
    (h : ∀ t, c.inv t → SameRevisions s t → post (deps.sha256 bytes) t) :
    Safe c post exc (putBlob deps.sha256 bytes) s := by
  apply safe_putBlob
  intro hgiven
  obtain ⟨hguar, hinvt⟩ := hc.putBlob s bytes hinv hblob hgiven
  exact ⟨hguar, hinvt, fun t hst _ => (hc.alone _ t).mp hst ▸ h _ hinvt rfl⟩

theorem alone_getBlob {hash : Sha256Hex} {post : Bytes → Store → Prop}
    (hc : Uninterrupted deps c a) (hinv : c.inv s)
    (h : ∀ bytes, s.getBlob hash = some bytes → post bytes s) :
    Safe c post (fun _ _ => True) (getBlob hash) s :=
  safe_getBlob hc.toStoreContract hinv
    (fun bytes hget t hst _ => (hc.alone s t).mp hst ▸ h bytes hget) fun _ _ _ _ _ => trivial

theorem alone_requireVault {vaultId : VaultId} {post : Vault → Store → Prop}
    (hc : Uninterrupted deps c a) (hinv : c.inv s)
    (h : ∀ vault, s.tables.getVault vaultId = some vault → post vault s) :
    Safe c post (fun _ _ => True) (requireVault vaultId) s := by
  refine Safe.bind (alone_query hc hinv ?_)
  cases hget : s.tables.getVault vaultId with
  | some vault => exact h vault hget
  | none => trivial

theorem alone_requireRevision {revisionId : RevisionId} {post : Revision → Store → Prop}
    (hc : Uninterrupted deps c a) (hinv : c.inv s)
    (h : ∀ revision, s.tables.getRevision revisionId = some revision → post revision s) :
    Safe c post (fun _ _ => True) (requireRevision revisionId) s := by
  refine Safe.bind (alone_query hc hinv ?_)
  cases hget : s.tables.getRevision revisionId with
  | some revision => exact h revision hget
  | none => trivial

theorem alone_ofExcept {result : Except Failure α} (h : ∀ x, result = .ok x → post x s) :
    Safe c post (fun _ _ => True) (Async.ofExcept result) s := by
  cases result with
  | ok x => exact h x rfl
  | error e => trivial

end Accesses

/-! ## Operations -/

/-- The head of the vault has the hash. -/
def HeadHas (t : Tables) (vault : Vault) (hash : Sha256Hex) : Prop :=
  ∃ head revision, vault.headRevisionId = some head ∧ t.getRevision head = some revision ∧
    revision.hash = hash

/-- A stored revision with its bytes. -/
def storedBytes (s : Store) (revisionId : RevisionId) : Option (RevisionId × Bytes) :=
  (s.tables.getRevision revisionId).bind fun revision =>
    (s.getBlob revision.hash).map fun bytes => (revisionId, bytes)

/-- What the interpreter makes of the stored revisions, when it merges them. -/
def mergedBytes (deps : EngineDeps) (s : Store) (vaultId : VaultId) (baseRevisionId : RevisionId)
    (incomingRevisionIds : List RevisionId) : Option Bytes :=
  (storedBytes s baseRevisionId).bind fun base =>
    (incomingRevisionIds.mapM (storedBytes s)).bind fun incoming =>
      match deps.merge vaultId base incoming with
      | .mergeSucceeded bytes => some bytes
      | _ => none

section Operations

variable {deps : EngineDeps} {c : Contract Store (EngineEvent Unit)} {a : Admission} {s : Store}

/-- From `s` on, the program keeps the contract, whatever it returns or throws. -/
abbrev KeepsAlone (c : Contract Store (EngineEvent Unit)) {α : Type}
    (p : Async Store (EngineEvent Unit) Failure α) (s : Store) : Prop :=
  Safe c (fun _ _ => True) (fun _ _ => True) p s

theorem importVault_alone (hc : Uninterrupted deps c a) (hinv : c.inv s) (vaultId : VaultId)
    (stamp : Stamp) (name : String) (bytes : Bytes) (kdbxPath : Option FilePath)
    (hvault : a.vault vaultId) (hblob : a.blob bytes)
    (hrevision : a.revision (importedRevision
      (stamp.seed vaultId (deps.sha256 bytes) bytes.length (some name)) (some deps.deviceId)) s) :
    KeepsAlone c (importVault deps vaultId stamp name bytes kdbxPath) s := by
  refine Safe.bind (alone_putBlob hc hinv hblob fun t hinv hst => ?_)
  apply alone_transaction hc hinv
  intro u hinv htu
  refine Safe.bind (alone_saveVault hc hinv hvault fun v hinv huv => ?_)
  have hrevision := hc.same _ _ _ ((hst.trans' htu).trans' huv) hrevision
  refine Safe.bind (alone_saveRevision hc hinv hrevision fun w hinv => ?_)
  refine Safe.bind (alone_saveVault hc hinv hvault fun x hinv _ => ?_)
  exact Safe.bind (alone_appendHeadEvent hc hinv fun _ _ => trivial)

theorem headWithHash_alone (hc : Uninterrupted deps c a) (hinv : c.inv s) (vault : Vault)
    (hash : Sha256Hex) {post : Option RevisionId → Store → Prop} (hfound : ∀ id, post (some id) s)
    (hnone : ¬ HeadHas s.tables vault hash → post none s) :
    Safe c post (fun _ _ => True) (headWithHash vault.headRevisionId hash) s := by
  cases hhead : vault.headRevisionId with
  | none =>
    refine hnone fun ⟨head, _, hhas, _⟩ => ?_
    rw [hhead] at hhas
    cases hhas
  | some head =>
    refine Safe.bind (alone_query hc hinv ?_)
    cases hget : s.tables.getRevision head with
    | none =>
      refine hnone fun ⟨head', _, hhas, hstored, _⟩ => ?_
      rw [hhead] at hhas
      cases hhas
      rw [hget] at hstored
      cases hstored
    | some revision =>
      by_cases hhash : revision.hash = hash
      · simp only [hhash, if_true]
        exact hfound _
      · simp only [hhash, if_false]
        refine hnone fun ⟨head', revision', hhas, hstored, hhas'⟩ => hhash ?_
        rw [hhead] at hhas
        cases hhas
        rw [hget] at hstored
        cases hstored
        exact hhas'

theorem recordLocalChange_alone (hc : Uninterrupted deps c a) (hinv : c.inv s) (stamp : Stamp)
    (vaultId : VaultId) (bytes : Bytes)
    (hchange : ∀ vault, s.tables.getVault vaultId = some vault →
      ¬ HeadHas s.tables vault (deps.sha256 bytes) →
      a.blob bytes ∧ a.revision (localChangeRevision
        (stamp.seed vaultId (deps.sha256 bytes) bytes.length none) vault.headRevisionId
        (some deps.deviceId)) s) :
    KeepsAlone c (recordLocalChange deps stamp vaultId bytes ()) s := by
  refine Safe.bind (alone_report hc hinv (by simp) (Safe.bind ?_))
  apply alone_requireVault hc hinv
  intro vault hget
  have hkey : vault.id = vaultId := Table.key_of_find hget
  have hvault : a.vault vault.id :=
    hkey ▸ hc.stored s vaultId hinv (Table.has_iff.mpr ⟨vault, hget⟩)
  refine Safe.bind (headWithHash_alone hc hinv vault _ (fun id => ?_) fun hnone => ?_)
  · exact Safe.bind (alone_report hc hinv (by simp) trivial)
  obtain ⟨hblob, hrevision⟩ := hchange vault hget hnone
  refine Safe.bind (alone_putBlob hc hinv hblob fun t hinv hst => ?_)
  apply alone_transaction hc hinv
  intro u hinv htu
  have hrevision := hc.same _ _ _ (hst.trans' htu) hrevision
  refine Safe.bind (alone_saveRevision hc hinv hrevision fun w hinv => ?_)
  refine Safe.bind (alone_saveVault hc hinv hvault fun x hinv _ => ?_)
  exact Safe.bind (alone_appendHeadEvent hc hinv fun _ _ => trivial)

theorem firstMissing_alone (hc : Uninterrupted deps c a) (hinv : c.inv s) (ids : List RevisionId)
    {post : Option RevisionId → Store → Prop} (hmissing : ∀ id, post (some id) s)
    (hnone : (∀ id ∈ ids, s.tables.hasRevision id = true) → post none s) :
    Safe c post (fun _ _ => True) (firstMissing ids) s := by
  induction ids with
  | nil => exact hnone (by simp)
  | cons parentId rest ih =>
    refine Safe.bind (alone_query hc hinv ?_)
    cases hhas : s.tables.hasRevision parentId with
    | true => exact ih fun hrest => hnone (List.forall_mem_cons.mpr ⟨hhas, hrest⟩)
    | false => exact hmissing parentId

/-- The revision id is the peer's; that it is not stored has been checked. -/
theorem ingestReceivedRevision_alone (hc : Uninterrupted deps c a) (hinv : c.inv s) (now : Nat)
    (input : IngestInput)
    (hreceived : s.tables.hasRevision input.revisionId = false →
      deps.sha256 input.bytes = input.declaredHash →
      (∀ id ∈ input.declaredParentIds, s.tables.hasRevision id = true) →
      a.blob input.bytes ∧ a.revision (RevisionSeed.base
        ⟨input.revisionId, input.vaultId, deps.sha256 input.bytes, input.bytes.length, now,
          input.message⟩
        input.declaredParentIds .received (some input.fromDeviceId)) s) :
    KeepsAlone c (ingestReceivedRevision deps now input) s := by
  refine Safe.bind (alone_query hc hinv ?_)
  split
  · trivial
  rename_i hpresent
  have hnew : s.tables.hasRevision input.revisionId = false := by simpa using hpresent
  dsimp only
  split
  · trivial
  rename_i hhash
  refine Safe.bind (firstMissing_alone hc hinv _ (fun parentId => trivial) fun hparents => ?_)
  obtain ⟨hblob, hrevision⟩ := hreceived hnew (by simpa using hhash) hparents
  refine Safe.bind (alone_putBlob hc hinv hblob fun t hinv hst => ?_)
  refine Safe.bind (alone_ofExcept fun revision hok => ?_)
  obtain ⟨-, rfl⟩ := receivedRevision_ok hok
  exact Safe.bind (alone_saveRevision hc hinv (hc.same _ _ _ hst hrevision) fun _ _ => trivial)

theorem requireRevisions_alone (hc : Uninterrupted deps c a) (hinv : c.inv s)
    (ids : List RevisionId) {post : List Revision → Store → Prop}
    (h : (∀ id ∈ ids, (s.tables.getRevision id).isSome = true) →
      post (ids.filterMap s.tables.getRevision) s) :
    Safe c post (fun _ _ => True) (requireRevisions ids) s := by
  refine fun _ => ⟨by simp, fun _ => ⟨hc.idle s hinv, hinv, fun t hst _ =>
    ⟨fun _ => rfl, fun _ => ?_⟩⟩⟩
  cases (hc.alone s t).mp hst
  split
  · trivial
  · rename_i hnone
    exact h fun id hid => by
      simpa [Option.isSome_iff_ne_none] using List.find?_eq_none.mp hnone id hid

theorem incomingBytes_alone (hc : Uninterrupted deps c a) (hinv : c.inv s)
    (revisions : List Revision) {post : List (RevisionId × Bytes) → Store → Prop}
    (h : ∀ found, (revisions.mapM fun revision =>
      (s.getBlob revision.hash).map fun bytes => (revision.id, bytes)) = some found →
      post found s) :
    Safe c post (fun _ _ => True) (incomingBytes revisions) s := by
  induction revisions generalizing post with
  | nil => exact h [] rfl
  | cons revision rest ih =>
    refine Safe.bind (alone_getBlob hc hinv fun bytes hbytes => ?_)
    refine Safe.bind (ih fun found hfound => h _ ?_)
    rw [List.mapM_cons, hbytes, hfound]
    rfl

/-- Known revisions, their ids and bytes. -/
theorem filterMap_getRevision {ids : List RevisionId}
    (h : ∀ id ∈ ids, (s.tables.getRevision id).isSome = true) :
    (ids.filterMap s.tables.getRevision).map (·.id) = ids ∧
      ((ids.filterMap s.tables.getRevision).mapM fun revision =>
        (s.getBlob revision.hash).map fun bytes => (revision.id, bytes)) =
        ids.mapM (storedBytes s) := by
  induction ids with
  | nil => exact ⟨rfl, rfl⟩
  | cons id rest ih =>
    obtain ⟨hids, hbytes⟩ := ih fun id hid => h id (List.mem_cons_of_mem _ hid)
    obtain ⟨revision, hget⟩ := Option.isSome_iff_exists.mp (h id List.mem_cons_self)
    have hid : revision.id = id := Tables.id_of_getRevision hget
    rw [List.filterMap_cons, hget]
    refine ⟨by simp [hid, hids], ?_⟩
    simp only [List.mapM_cons, hbytes, storedBytes, hget, hid, Option.bind_some]

theorem merge_alone (hc : Uninterrupted deps c a) (hinv : c.inv s) (stamp : Stamp)
    (vaultId : VaultId) (baseRevisionId : RevisionId) (incomingRevisionIds : List RevisionId)
    (message : Option String)
    (hmerged : ∀ bytes, mergedBytes deps s vaultId baseRevisionId incomingRevisionIds = some bytes →
      a.blob bytes ∧ a.revision ((stamp.seed vaultId (deps.sha256 bytes) bytes.length
        (message.orElse fun _ =>
          some ("Merged " ++ toString (incomingRevisionIds.length + 1) ++ " revisions"))).base
        (baseRevisionId :: incomingRevisionIds) .merged (some deps.deviceId)) s) :
    KeepsAlone c (merge deps stamp vaultId baseRevisionId incomingRevisionIds message) s := by
  refine Safe.bind (alone_requireRevision hc hinv fun base hbase => ?_)
  refine Safe.bind (requireRevisions_alone hc hinv _ fun hknown => ?_)
  obtain ⟨hids, hfound⟩ := filterMap_getRevision hknown
  have hid : base.id = baseRevisionId := Tables.id_of_getRevision hbase
  refine Safe.bind (alone_getBlob hc hinv fun baseBytes hbaseBytes => ?_)
  refine Safe.bind (incomingBytes_alone hc hinv _ fun found hincoming => ?_)
  rw [hfound] at hincoming
  have hbytes : mergedBytes deps s vaultId baseRevisionId incomingRevisionIds =
      match deps.merge vaultId (base.id, baseBytes) found with
      | .mergeSucceeded bytes => some bytes
      | _ => none := by
    simp [mergedBytes, storedBytes, hbase, hbaseBytes, hincoming, hid]
  split
  · trivial
  · trivial
  · rename_i bytes hsucceeded
    rw [hsucceeded] at hbytes
    obtain ⟨hblob, hrevision⟩ := hmerged bytes hbytes
    refine Safe.bind (alone_putBlob hc hinv hblob fun t hinv hst => ?_)
    refine Safe.bind (alone_ofExcept fun revision hok => ?_)
    obtain rfl := mergedRevision_ok hok
    have hlength : (incomingRevisionIds.filterMap s.tables.getRevision).length =
        incomingRevisionIds.length := by
      rw [← List.length_map (f := (·.id)), hids]
    rw [hid, hids, hlength]
    exact Safe.bind (alone_saveRevision hc hinv (hc.same _ _ _ hst hrevision) fun _ _ => trivial)

theorem commitHeadMove_alone (hc : Uninterrupted deps c a) (hinv : c.inv s) (next : Vault)
    (headEvent : HeadRevisionEvent) (origin : Option Unit) (hvault : a.vault next.id) :
    KeepsAlone c (commitHeadMove next headEvent origin) s := by
  apply alone_transaction hc hinv
  intro t hinv _
  refine Safe.bind (alone_saveVault hc hinv hvault fun u hinv _ => ?_)
  exact Safe.bind (alone_appendHeadEvent hc hinv fun _ _ => trivial)

/-- What `promote` and `fastForward` do once they have the vault and the revision. -/
theorem moveHead_alone (hc : Uninterrupted deps c a) (hinv : c.inv s) (vaultId : VaultId)
    (revisionId : RevisionId) (origin : Option Unit)
    (move : Vault → Revision → Except Failure (Vault × HeadRevisionEvent))
    (hmove : ∀ vault revision next headEvent, move vault revision = .ok (next, headEvent) →
      next.id = vault.id) :
    KeepsAlone c (do
      let vault ← requireVault vaultId
      let revision ← requireRevision revisionId
      let (next, headEvent) ← Async.ofExcept (move vault revision)
      commitHeadMove next headEvent origin) s := by
  refine Safe.bind (alone_requireVault hc hinv fun vault hget => ?_)
  refine Safe.bind (alone_requireRevision hc hinv fun revision _ => ?_)
  refine Safe.bind (alone_ofExcept fun ⟨next, headEvent⟩ hok => ?_)
  have hkey : vault.id = vaultId := Table.key_of_find hget
  have hstored := hc.stored s vaultId hinv (Table.has_iff.mpr ⟨vault, hget⟩)
  exact commitHeadMove_alone hc hinv next headEvent origin
    (((hmove _ _ _ _ hok).trans hkey) ▸ hstored)

theorem promote_alone (hc : Uninterrupted deps c a) (hinv : c.inv s) (now : Nat)
    (vaultId : VaultId) (revisionId : RevisionId) :
    KeepsAlone c (promote now vaultId revisionId) s := by
  refine moveHead_alone hc hinv vaultId revisionId none
    (fun vault revision => promoteRevision vault revision now) ?_
  intro vault revision next headEvent hok
  obtain ⟨-, heq⟩ := moved_ok hok
  cases heq
  rfl

theorem fastForward_alone (hc : Uninterrupted deps c a) (hinv : c.inv s) (now : Nat)
    (vaultId : VaultId) (revisionId : RevisionId) :
    KeepsAlone c (fastForward now vaultId revisionId ()) s := by
  refine Safe.bind (alone_report hc hinv (by simp) ?_)
  refine moveHead_alone hc hinv vaultId revisionId (some ())
    (fun vault revision => fastForwardRevision vault revision now) ?_
  intro vault revision next headEvent hok
  obtain ⟨-, heq⟩ := moved_ok hok
  cases heq
  rfl

theorem adoptVault_alone (hc : Uninterrupted deps c a) (hinv : c.inv s) (now : Nat)
    (vaultId : VaultId) (name : String)
    (hvault : s.tables.getVault vaultId = none → a.vault vaultId) :
    KeepsAlone c (adoptVault now vaultId name) s := by
  refine Safe.bind (alone_query hc hinv ?_)
  split
  · trivial
  · rename_i hnone
    exact Safe.bind (alone_saveVault hc hinv (hvault hnone) fun _ _ _ => trivial)

theorem bindVaultToFile_alone (hc : Uninterrupted deps c a) (hinv : c.inv s) (vaultId : VaultId)
    (kdbxPath : FilePath) : KeepsAlone c (bindVaultToFile vaultId kdbxPath) s := by
  refine Safe.bind (alone_requireVault hc hinv fun vault hget => ?_)
  have hkey : vault.id = vaultId := Table.key_of_find hget
  have hvault : a.vault vault.id :=
    hkey ▸ hc.stored s vaultId hinv (Table.has_iff.mpr ⟨vault, hget⟩)
  exact Safe.bind (alone_saveVault hc hinv hvault fun _ _ _ => trivial)

end Operations

end SyncEngine

end PassVault
