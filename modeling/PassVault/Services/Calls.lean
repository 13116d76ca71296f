import PassVault.Services.Steps

/-!
# The calls follow the steps

Every program of the services makes the accesses of `ServiceSteps` and no others, whatever the
other programs do at its awaits.
-/

namespace PassVault

open Async

theorem Store.Quiet.refl (sha256 : Bytes → Sha256Hex) (s : Store) : s.Quiet sha256 s :=
  ⟨.refl _, id, rfl, rfl, rfl, rfl⟩

theorem Store.quiet_bookkeeping {f : Store → Store} (hf : Bookkeeping f)
    (sha256 : Bytes → Sha256Hex) (s : Store) : s.Quiet sha256 (f s) := by
  refine ⟨Store.grows_bookkeeping hf s, fun h => ?_, ?_, ?_, ?_, ?_⟩ <;> cases hf
  all_goals first | rfl | exact ⟨h.heads, h.closed, h.blobs, h.hashes⟩

theorem Store.quiet_setTables {sha256 : Bytes → Sha256Hex} {s : Store} {tables : Tables}
    (hvaults : tables.vaults = s.tables.vaults) (hrevisions : tables.revisions = s.tables.revisions)
    (hparents : tables.revisionParents = s.tables.revisionParents)
    (hconflicts : tables.conflicts = s.tables.conflicts) :
    s.Quiet sha256 (s.setTables tables) := by
  refine ⟨Store.grows_setTables ⟨fun id h => ?_, fun id row h => ?_, fun x p h => ?_⟩,
    fun h => h.other hvaults hrevisions hparents, hvaults, hrevisions, hparents, hconflicts⟩
  · rwa [hvaults]
  · rwa [hrevisions]
  · rwa [Tables.StoredParent, hparents]

theorem Device.Idle.refl (sha256 : Bytes → Sha256Hex) (s : Device) : s.Idle sha256 s :=
  ⟨rfl, .refl _ _⟩

theorem ServiceSteps.stays {sha256 : Bytes → Sha256Hex} {v : Tracked} {g : Place} {s : Device} :
    ServiceSteps sha256 v g s [] s g :=
  .idle (.refl _ s) (by simp)

namespace VaultServices

section Accesses

variable {deps : ServiceDeps} {v : Tracked} {cond : Device → DeviceEvent → Prop} {α : Type}
  {post : Place → Device → α → Prop} {onFail : Place → Device → Prop} {g g' : Place} {s : Device}

/-- What the calls of a device keep to. -/
abbrev calls (deps : ServiceDeps) (v : Tracked) (cond : Device → DeviceEvent → Prop) :
    Discipline Place Device DeviceEvent :=
  serviceDiscipline deps.sha256 v cond

theorem obeys_read {f : Device → α} (h : post g s (f s)) :
    Obeys (calls deps v cond) post onFail (Async.read f : OnDevice α) g s :=
  fun _ => ⟨g, .stays, fun _ => h⟩

theorem obeys_wait {p : OnDevice α}
    (h : ∀ t, s.Onward t → t.Sound deps.sha256 v → Obeys (calls deps v cond) post onFail p g t) :
    Obeys (calls deps v cond) post onFail (.await (fun _ => true) p) g s :=
  fun t hst ht _ => h t hst ht

/-- An access that only reads, and waits for what it has read. -/
theorem obeys_look {p : Device → OnDevice α} (hstep : ServiceSteps deps.sha256 v g s [] s g')
    (h : ∀ t, s.Onward t → t.Sound deps.sha256 v →
      Obeys (calls deps v cond) post onFail (p s) g' t) :
    Obeys (calls deps v cond) post onFail
      (.act (fun s => (s, [])) fun s => .await (fun _ => true) (p s)) g s :=
  fun _ => ⟨g', hstep, fun _ => obeys_wait h⟩

theorem obeys_query {f : Tables → α} (hstep : ServiceSteps deps.sha256 v g s [] s g')
    (h : ∀ t, s.Onward t → t.Sound deps.sha256 v → post g' t (f s.store.tables)) :
    Obeys (calls deps v cond) post onFail (query f) g s :=
  obeys_look hstep h

theorem obeys_execute {f : Tables → Except Failure Tables} {events : List DeviceEvent}
    {post : Place → Device → Unit → Prop} (g' : Place)
    (hok : ∀ tables, f s.store.tables = .ok tables → (∀ e ∈ events, cond s e) →
      ServiceSteps deps.sha256 v g s events (changeStore (Store.setTables tables) events s).1 g' ∧
      ∀ t, (changeStore (Store.setTables tables) events s).1.Onward t → t.Sound deps.sha256 v →
        post g' t ())
    (herror : ∀ e, f s.store.tables = .error e → ∀ t, s.Onward t → t.Sound deps.sha256 v →
      onFail g t) :
    Obeys (calls deps v cond) post onFail (execute f events) g s := by
  cases hf : f s.store.tables with
  | ok tables =>
    rw [execute, Obeys]
    simp only [Device.store_eq, hf]
    intro hcond
    have hevents : (changeStore (Store.setTables tables) events s).2 = events := rfl
    rw [hevents] at hcond ⊢
    obtain ⟨hstep, hpost⟩ := hok tables hf hcond
    exact ⟨g', hstep, fun _ t hst ht _ => hpost t hst ht⟩
  | error e =>
    rw [execute, Obeys]
    simp only [Device.store_eq, hf]
    exact fun _ => ⟨g, .stays, fun _ t hst ht _ => herror e hf t hst ht⟩

/-- A change of the store that is of no concern. -/
theorem obeys_change {f : Store → Store} {p : OnDevice α}
    (hquiet : s.store.Quiet deps.sha256 (f s.store))
    (h : (changeStore f [] s).1.Sound deps.sha256 v → s.Onward (changeStore f [] s).1 →
      Obeys (calls deps v cond) post onFail p g (changeStore f [] s).1) :
    Obeys (calls deps v cond) post onFail (.act (changeStore f []) fun _ => p) g s := by
  have hstep : ServiceSteps deps.sha256 v g s [] (changeStore f [] s).1 g :=
    .idle ⟨rfl, hquiet⟩ (by simp)
  exact fun _ => ⟨g, hstep, fun ht => h ht ⟨hquiet.grows, Nat.le_refl _⟩⟩

theorem obeys_putBlob {bytes : Bytes} {post : Place → Device → Sha256Hex → Prop}
    (h : ∀ t, s.Onward t → t.Sound deps.sha256 v →
      (∃ b, t.store.getBlob (deps.sha256 bytes) = some b) → post g t (deps.sha256 bytes)) :
    Obeys (calls deps v cond) post onFail (putBlob deps.sha256 bytes) g s := by
  refine obeys_change ⟨Store.grows_putBlob _ _ _, fun h => h.putBlob bytes, rfl, rfl, rfl, rfl⟩
    fun _ hst => obeys_wait fun t htt ht => h t (hst.trans htt) ht ?_
  obtain ⟨b, hb⟩ := Store.getBlob_putBlob deps.sha256 s.store bytes
  exact ⟨b, htt.grows.blobs _ _ hb⟩

theorem obeys_getBlob {hash : Sha256Hex} {post : Place → Device → Bytes → Prop}
    (hs : s.Sound deps.sha256 v)
    (hstored : (∃ bytes, s.store.getBlob hash = some bytes) ∨ ∀ t, onFail g t)
    (h : ∀ bytes t, deps.sha256 bytes = hash → s.Onward t → t.Sound deps.sha256 v →
      post g t bytes) :
    Obeys (calls deps v cond) post onFail (getBlob hash) g s := by
  apply obeys_look .stays
  intro t hst ht
  rw [Device.store_eq]
  cases hget : s.store.getBlob hash with
  | some bytes => exact h bytes t (hs.wellFormed.hashes _ _ hget) hst ht
  | none =>
    rcases hstored with ⟨bytes, hbytes⟩ | hfail
    · rw [hget] at hbytes
      cases hbytes
    · exact hfail t

/-- A transaction whose body never throws. -/
theorem obeys_transaction {body : OnDevice α} (hs : s.Sound deps.sha256 v)
    (hbody : ∀ t, s.Onward t → t.Sound deps.sha256 v →
      Obeys (calls deps v cond) post (fun _ _ => False) body g t)
    (hpost : ∀ g a t u, post g t a → t.Onward u → u.Sound deps.sha256 v → post g u a) :
    Obeys (calls deps v cond) post onFail (transaction body) g s := by
  refine Obeys.seq (obeys_read ?_)
  split
  · exact (hbody s (.refl s) hs).mono (fun _ _ _ h => h) fun _ _ h => h.elim
  · refine Obeys.seq (obeys_read ?_)
    apply obeys_change (Store.quiet_bookkeeping .enqueue _ _)
    intro _ hst t htt ht _
    refine Obeys.seq (obeys_change (Store.quiet_bookkeeping .begin _ _) fun hu htu => ?_)
    refine Obeys.seq (Obeys.tryCatch (fun _ _ _ (h : False) => h.elim) ?_)
    refine (hbody _ (hst.trans (htt.trans htu)) hu).mono (fun g' w a h => ?_) fun _ _ h => h
    refine Obeys.seq (obeys_change (Store.quiet_bookkeeping .commit _ _) fun _ hwx => ?_)
    exact obeys_wait fun y hxy hy => hpost g' a w y h (hwx.trans hxy) hy

end Accesses

/-! ## Operations of the engine -/

section Engine

variable {deps : ServiceDeps} {v : Tracked} {cond : Device → DeviceEvent → Prop}
  {onFail : Place → Device → Prop} {g : Stage} {call : ServiceCall} {c : Option Combination}
  {s : Device}

theorem obeys_requireVault {post : Place → Device → Vault → Prop} {g g' : Place}
    (hs : s.Sound deps.sha256 v)
    (hstep : ∀ vault, s.store.tables.getVault v.vaultId = some vault →
      ServiceSteps deps.sha256 v g s [] s g')
    (h : ∀ vault t, s.store.tables.getVault v.vaultId = some vault →
      vault.kdbxPath = v.kdbxPath → s.Onward t → t.Sound deps.sha256 v →
      SyncEngine.VaultRead v.vaultId vault t.store → post g' t vault) :
    Obeys (calls deps v cond) post onFail (SyncEngine.requireVault v.vaultId) g s := by
  obtain ⟨vault, hrow, hpath⟩ := hs.bound
  refine Obeys.seq (obeys_query (hstep vault hrow) fun t hst ht => ?_)
  rw [hrow]
  exact h vault t hrow hpath hst ht ((SyncEngine.vaultRead hs.wellFormed hrow).mono hst.grows)

theorem obeys_requireRevision {revisionId : RevisionId} {post : Place → Device → Revision → Prop}
    {g : Place}
    (h : ∀ revision row t, revision.id = revisionId →
      t.store.tables.revisions.find revisionId = some row → revision.hash = row.hash →
      revision.vaultId = row.vaultId → s.Onward t → t.Sound deps.sha256 v → post g t revision)
    (hfail : s.store.tables.revisions.find revisionId = none → ∀ t, onFail g t) :
    Obeys (calls deps v cond) post onFail (SyncEngine.requireRevision revisionId) g s := by
  refine Obeys.seq (obeys_query .stays fun t hst ht => ?_)
  cases hget : s.store.tables.getRevision revisionId with
  | some revision =>
    obtain ⟨row, hrow, rfl⟩ := Tables.getRevision_eq_some.mp hget
    have hid : row.id = revisionId := Table.key_of_find hrow
    exact h _ row t hid (hst.grows.tables.revisions _ _ hrow) rfl rfl hst ht
  | none =>
    refine hfail ?_ t
    rwa [Tables.getRevision, Option.map_eq_none_iff] at hget

/-- The bytes of a stored revision have its hash. -/
theorem obeys_bytesOf {revisionId : RevisionId} {row : RevisionRow}
    {post : Place → Device → Bytes → Prop} {g : Place}
    (hrow : s.store.tables.revisions.find revisionId = some row)
    (h : ∀ bytes t, deps.sha256 bytes = row.hash → s.Onward t → t.Sound deps.sha256 v →
      post g t bytes) :
    Obeys (calls deps v cond) post onFail (SyncEngine.bytesOf revisionId) g s := by
  refine Obeys.seq (obeys_requireRevision (fun revision row' t _ hrow' hhash _ hst ht => ?_)
    fun hnone => by rw [hrow] at hnone; cases hnone)
  have hsame := hst.grows.tables.revisions _ _ hrow
  rw [hrow'] at hsame
  cases hsame
  have hblob := hhash ▸ ht.wellFormed.blobs _ _ hrow'
  apply obeys_getBlob ht (Or.inl hblob)
  intro bytes u hbytes htu hu
  exact h bytes u (hbytes.trans hhash) (hst.trans htu) hu

theorem obeys_appendHeadEvent {headEvent : HeadRevisionEvent}
    {post : Place → Device → Unit → Prop} {g : Place}
    (hvault : s.store.tables.vaults.has headEvent.vaultId = true)
    (h : ∀ t, s.Onward t → t.Sound deps.sha256 v → post g t ()) :
    Obeys (calls deps v cond) post onFail (SyncEngine.appendHeadEvent headEvent) g s := by
  refine obeys_execute g (fun tables hsave _ => ?_) fun e he => ?_
  · rw [Tables.appendHeadEvent, if_pos hvault] at hsave
    cases hsave
    have hquiet : s.store.Quiet deps.sha256 (s.store.setTables
        { s.store.tables with headEvents := s.store.tables.headEvents ++ [headEvent] }) :=
      Store.quiet_setTables rfl rfl rfl rfl
    refine ⟨.idle ⟨rfl, hquiet⟩ (by simp), fun t hst ht => h t ?_ ht⟩
    exact ⟨hquiet.grows.trans hst.grows, hst.moves⟩
  · rw [Tables.appendHeadEvent, if_pos hvault] at he
    cases he

/-- The row of the vault is written with a new head, and the head event after it. -/
theorem obeys_moveHead {α : Type} {result : α} {vault : Vault} {revisionId : RevisionId}
    {todo : Todo} {why : VaultWrite Nat} {headEvent : HeadRevisionEvent}
    (hleads : Stage.Leads call c g revisionId todo) (hid : vault.id = v.vaultId)
    (hpath : vault.kdbxPath = v.kdbxPath) (hhead : vault.headRevisionId = some revisionId)
    (hof : s.store.tables.OfVault v.vaultId revisionId)
    (hwhy : why.movesHead ∧ ((∃ revision origin, why = .recorded revision origin) ↔ todo = .clear))
    (hevent : headEvent.vaultId = v.vaultId) :
    Obeys (calls deps v cond) (fun g' _ a => g' = ⟨.owing todo, some call, c⟩ ∧ a = result)
      (fun _ _ => False) (do
        SyncEngine.saveVault vault why
        SyncEngine.appendHeadEvent headEvent
        return result) ⟨g, some call, c⟩ s := by
  refine Obeys.seq (obeys_execute ⟨.owing todo, some call, c⟩ (fun tables hsave _ => ?_)
    fun e he => by cases he)
  cases hsave
  have hstep : ServiceSteps deps.sha256 v ⟨g, some call, c⟩ s [.engine (.wroteVault vault why)]
      { s with
        store := s.store.setTables (s.store.tables.saveVault vault), moves := s.moves + 1 }
      ⟨.owing todo, some call, c⟩ := .store (.moves hleads hid hpath hhead hof hwhy)
  have hchange : (changeStore (Store.setTables (s.store.tables.saveVault vault))
      [event Device (.wroteVault vault why)] s).1 = { s with
        store := s.store.setTables (s.store.tables.saveVault vault), moves := s.moves + 1 } := by
    cases why with
    | recorded | moved => rfl
    | created | imported | adopted | bound => exact hwhy.1.elim
  refine ⟨hchange ▸ hstep, fun t hst ht => ?_⟩
  rw [hchange] at hst
  refine Obeys.seq (obeys_appendHeadEvent ?_ fun u _ _ => ⟨rfl, rfl⟩)
  exact hst.grows.tables.vaults _ (hevent.trans hid.symm ▸ Tables.has_saveVault vault _)

theorem obeys_commitHeadMove {vault next : Vault} {revisionId : RevisionId} {todo : Todo}
    {headEvent : HeadRevisionEvent} {origin : Option Nat} {now : Nat} {reason : HeadReason}
    (hs : s.Sound deps.sha256 v) (hleads : Stage.Leads call c g revisionId todo)
    (htodo : todo ≠ .clear) (hid : vault.id = v.vaultId) (hpath : vault.kdbxPath = v.kdbxPath)
    (hof : s.store.tables.OfVault v.vaultId revisionId)
    (hmove : (next, headEvent) = moveHead vault revisionId now reason) :
    Obeys (calls deps v cond) (fun g' _ _ => g' = ⟨.owing todo, some call, c⟩) onFail
      (SyncEngine.commitHeadMove next headEvent origin) ⟨g, some call, c⟩ s := by
  cases hmove
  refine obeys_transaction hs (fun t hst ht => ?_) fun _ _ _ _ h _ _ => h
  have hmoved : (VaultWrite.moved (moveHead vault revisionId now reason).2 origin).movesHead ∧
      ((∃ revision origin', VaultWrite.moved (moveHead vault revisionId now reason).2 origin =
        .recorded revision origin') ↔ todo = .clear) :=
    ⟨trivial, by simp, fun h => absurd h htodo⟩
  have hevent : (moveHead vault revisionId now reason).2.vaultId = v.vaultId := hid
  exact Obeys.mono (fun _ _ _ h => h.1) (fun _ _ h => h)
    (obeys_moveHead hleads hid hpath rfl (hof.mono hst.grows.tables) hmoved hevent)

/-- `promote` and `fastForward`: they throw before anything is written. -/
theorem obeys_moved {revisionId : RevisionId} {todo : Todo} {message : String} {now : Nat}
    {reason : HeadReason} {origin : Option Nat} (hs : s.Sound deps.sha256 v)
    (hleads : Stage.Leads call c g revisionId todo) (htodo : todo ≠ .clear) :
    Obeys (calls deps v cond) (fun g' _ _ => g' = ⟨.owing todo, some call, c⟩)
      (fun g' _ => g' = ⟨g, some call, c⟩) (do
        let vault ← SyncEngine.requireVault v.vaultId
        let revision ← SyncEngine.requireRevision revisionId
        let (next, headEvent) ← Async.ofExcept (do
          assert (vault.id = revision.vaultId) message
          return moveHead vault revision.id now reason)
        SyncEngine.commitHeadMove next headEvent origin) ⟨g, some call, c⟩ s := by
  refine Obeys.seq (obeys_requireVault hs (fun _ _ => .stays) fun vault t _ hpath _ ht hread => ?_)
  refine Obeys.seq (obeys_requireRevision (fun revision row u hid hrow _ hvault htu hu => ?_)
    fun _ _ => rfl)
  refine Obeys.seq (Obeys.ofExcept (fun move hmove => ?_) fun _ _ => rfl)
  obtain ⟨hsame, hmove⟩ := moved_ok hmove
  rw [hid] at hmove
  have hof : u.store.tables.OfVault v.vaultId revisionId :=
    ⟨row, hrow, hvault.symm.trans (hsame.symm.trans hread.id)⟩
  exact obeys_commitHeadMove hu hleads htodo hread.id hpath hof hmove

theorem obeys_promote {revisionId : RevisionId} {todo : Todo} {now : Nat}
    (hs : s.Sound deps.sha256 v) (hleads : Stage.Leads call c g revisionId todo)
    (htodo : todo ≠ .clear) :
    Obeys (calls deps v cond) (fun g' _ _ => g' = ⟨.owing todo, some call, c⟩)
      (fun g' _ => g' = ⟨g, some call, c⟩) (SyncEngine.promote now v.vaultId revisionId)
      ⟨g, some call, c⟩ s :=
  obeys_moved hs hleads htodo

/-- Reporting what concerns nothing. -/
theorem obeys_report {e : EngineEvent Nat} {post : Place → Device → Unit → Prop} {g : Place}
    (hquiet : (DeviceEvent.engine e).quiet) (h : post g s ()) :
    Obeys (calls deps v cond) post onFail (SyncEngine.report e) g s := by
  have hchange : changeStore id [event Device e] s = (s, [.engine e]) := by
    cases e with
    | called | unchanged | advancing => rfl
    | saved | wroteVault => exact hquiet.elim
  intro hcond
  rw [hchange] at hcond ⊢
  exact ⟨g, .idle (.refl _ s) (by simpa using hquiet), fun _ => h⟩

theorem obeys_fastForward {revisionId : RevisionId} {todo : Todo} {now origin : Nat}
    (hs : s.Sound deps.sha256 v) (hleads : Stage.Leads call c g revisionId todo)
    (htodo : todo ≠ .clear) :
    Obeys (calls deps v cond) (fun g' _ _ => g' = ⟨.owing todo, some call, c⟩)
      (fun g' _ => g' = ⟨g, some call, c⟩)
      (SyncEngine.fastForward now v.vaultId revisionId origin) ⟨g, some call, c⟩ s :=
  Obeys.seq (obeys_report trivial (obeys_moved hs hleads htodo))

/-- Whether the head that was read has this hash; a stored head that has not is another. -/
theorem obeys_headWithHash {headRevisionId : Option RevisionId} {hash : Sha256Hex}
    {post : Place → Device → Option RevisionId → Prop} {g : Place} (hs : s.Sound deps.sha256 v)
    (hof : ∀ head, headRevisionId = some head → s.store.tables.OfVault v.vaultId head)
    (hsome : ∀ head t, s.Onward t → t.Sound deps.sha256 v → post g t (some head))
    (hnone : ∀ t, (∀ head, headRevisionId = some head → ∃ row,
      t.store.tables.revisions.find head = some row ∧ row.hash ≠ hash) → s.Onward t →
      t.Sound deps.sha256 v → post g t none) :
    Obeys (calls deps v cond) post onFail (SyncEngine.headWithHash headRevisionId hash) g s := by
  cases headRevisionId with
  | none => exact hnone s (by simp) (.refl s) hs
  | some head =>
    refine Obeys.seq (obeys_query .stays fun t hst ht => ?_)
    obtain ⟨row, hrow, -⟩ := hof head rfl
    simp only [Tables.getRevision, hrow, Option.map_some]
    split
    · exact hsome _ t hst ht
    · rename_i hdiffers
      refine hnone t (fun head' hhead => ?_) hst ht
      cases hhead
      exact ⟨row, hst.grows.tables.revisions _ _ hrow, hdiffers⟩

/-- What was saved is recorded, from when the file was read. -/
theorem obeys_recordLocalChange {stamp : Stamp} {bytes : Bytes} {seen : Nat}
    (hfresh : ∀ s e, cond s e → SyncEngine.FreshIds s e) (hs : s.Sound deps.sha256 v) :
    Obeys (calls deps v cond)
      (fun g' _ result => match result with
        | .recorded _ => g' = ⟨.owing .clear, some call, c⟩
        | .unchanged _ => ∃ vault, g' = ⟨.compared bytes vault, some call, c⟩)
      (fun _ _ => False)
      (SyncEngine.recordLocalChange deps.toEngineDeps stamp v.vaultId bytes seen)
      ⟨.saved bytes seen, some call, c⟩ s := by
  obtain ⟨vault, hrow, hpath⟩ := hs.bound
  -- The report and the reading of the row are in one section.
  refine Obeys.seq fun _ => ⟨⟨.compared bytes vault, some call, c⟩, .store (.compares hrow),
    fun _ => Obeys.seq (obeys_requireVault hs (fun _ _ => .stays) ?_)⟩
  rintro vault' t hrow' - hst ht hread
  cases Option.some.inj (hrow.symm.trans hrow')
  refine Obeys.seq (obeys_headWithHash ht hread.head (fun head u _ _ => ?_)
    fun u hdiffers htu hu => ?_)
  · exact Obeys.seq (obeys_report trivial ⟨vault, rfl⟩)
  · refine Obeys.seq (obeys_putBlob fun w huw hw hblob => ?_)
    refine obeys_transaction hw (fun x hwx hx => ?_) fun g' a _ _ h _ _ => h
    have hread : SyncEngine.VaultRead v.vaultId vault x.store :=
      hread.mono (htu.grows.trans (huw.grows.trans hwx.grows))
    refine Obeys.seq (obeys_execute ⟨.recorded stamp.revisionId, some call, c⟩
      (fun tables hsave hcond => ?_) fun e he => ?_)
    · have hevent := hcond _ (List.mem_singleton.mpr rfl)
      have hnew := hfresh _ _ hevent _ rfl (by simp [localChangeRevision, RevisionSeed.base])
      have hdiffers : ∀ head, vault.headRevisionId = some head → ∃ row,
          x.store.tables.revisions.find head = some row ∧ row.hash ≠ deps.sha256 bytes := by
        intro head hhead
        obtain ⟨row, hfind, hne⟩ := hdiffers head hhead
        exact ⟨row, hwx.grows.tables.revisions _ _ (huw.grows.tables.revisions _ _ hfind), hne⟩
      have hblob := hblob.imp fun b hb => hwx.grows.blobs _ _ hb
      refine ⟨.store (.records hdiffers rfl ⟨rfl, hnew, hblob, hsave⟩), fun y hxy hy => ?_⟩
      have hstored := hxy.grows.tables.revisions _ _ (Store.find_saveRevision hsave hnew)
      refine Obeys.mono (fun g' _ a h => ?_) (fun _ _ h => h) (obeys_moveHead .recorded hread.id
        hpath rfl ⟨_, hstored, rfl⟩ ⟨trivial, by simp⟩ rfl)
      rw [h.2]
      exact h.1
    · rw [Tables.saveRevision_of_stored (fun p hp => ?_) hread.stored] at he
      · cases he
      · obtain ⟨row, hfind, -⟩ := hread.head p (Option.mem_toList.mp hp)
        exact Table.has_iff.mpr ⟨row, hfind⟩

theorem obeys_requireRevisions {ids : List RevisionId}
    {post : Place → Device → List Revision → Prop} {g : Place}
    (h : ∀ revisions t, revisions.map (·.id) = ids → s.Onward t → t.Sound deps.sha256 v →
      post g t revisions)
    (hfail : ∀ t, onFail g t) :
    Obeys (calls deps v cond) post onFail (SyncEngine.requireRevisions ids) g s := by
  apply obeys_look .stays
  intro t hst ht
  split
  · exact hfail t
  · rename_i hall
    refine h _ t ?_ hst ht
    rw [List.find?_eq_none] at hall
    rw [List.map_filterMap]
    refine (List.filterMap_congr fun id hid => ?_).trans List.filterMap_some
    have hstored := hall id hid
    cases hget : s.store.tables.getRevision id with
    | some revision =>
      rw [Option.map_some, Tables.id_of_getRevision hget]
    | none =>
      rw [Device.store_eq, hget] at hstored
      exact absurd rfl hstored

theorem obeys_incomingBytes {revisions : List Revision}
    {post : Place → Device → List (RevisionId × Bytes) → Prop} {g : Place}
    (hs : s.Sound deps.sha256 v)
    (h : ∀ found t, s.Onward t → t.Sound deps.sha256 v → post g t found)
    (hfail : ∀ t, onFail g t) :
    Obeys (calls deps v cond) post onFail (SyncEngine.incomingBytes revisions) g s := by
  induction revisions generalizing s post with
  | nil => exact h [] s (.refl s) hs
  | cons revision rest ih =>
    refine Obeys.seq (obeys_getBlob hs (Or.inr hfail) fun bytes t _ hst ht => ?_)
    exact Obeys.seq (ih ht fun found u htu hu => h _ u (hst.trans htu) hu)

/-- The merged revision is a child of the two versions. -/
theorem obeys_merge {stamp : Stamp} {head other : RevisionId} {message : Option String}
    (hfresh : ∀ s e, cond s e → SyncEngine.FreshIds s e) :
    Obeys (calls deps v cond)
      (fun g' _ result => match result with
        | .merged revision => g' = ⟨.merging, some call, some ⟨head, other, revision.id⟩⟩
        | _ => g' = ⟨.based head other, some call, none⟩)
      (fun g' _ => g' = ⟨.based head other, some call, none⟩)
      (SyncEngine.merge deps.toEngineDeps stamp v.vaultId head [other] message)
      ⟨.based head other, some call, none⟩ s := by
  refine Obeys.seq (obeys_requireRevision (fun base row t hbase _ _ _ _ ht => ?_) fun _ _ => rfl)
  refine Obeys.seq (obeys_requireRevisions (fun incoming u hincoming _ hu => ?_) fun _ => rfl)
  refine Obeys.seq (obeys_getBlob hu (Or.inr fun _ => rfl) fun baseBytes w _ _ hw => ?_)
  refine Obeys.seq (obeys_incomingBytes hw (fun found x _ hx => ?_) fun _ => rfl)
  split
  · rfl
  · rfl
  · refine Obeys.seq (obeys_putBlob fun y _ hy hblob => ?_)
    refine Obeys.seq (Obeys.ofExcept (fun revision hrevision => ?_) fun _ _ => rfl)
    have hrevision := mergedRevision_ok hrevision
    have hparents : revision.parentIds = [head, other] := by
      rw [hrevision, base_parentIds, hbase, hincoming]
    refine Obeys.seq (obeys_execute ⟨.merging, some call, some ⟨head, other, revision.id⟩⟩
      (fun tables hsave hcond => ⟨.merges hparents ⟨?_, ?_, ?_, hsave⟩, fun _ _ _ => rfl⟩)
      fun _ _ _ _ _ => rfl)
    · rw [hrevision]
      rfl
    · exact hfresh _ _ (hcond _ (List.mem_singleton.mpr rfl)) _ rfl (by simp [hrevision])
    · rw [hrevision]
      exact hblob

theorem obeys_firstMissing {ids : List RevisionId}
    {post : Place → Device → Option RevisionId → Prop} {g : Place} (hs : s.Sound deps.sha256 v)
    (h : ∀ found t, s.Onward t → t.Sound deps.sha256 v → post g t found) :
    Obeys (calls deps v cond) post onFail (SyncEngine.firstMissing ids) g s := by
  induction ids generalizing s with
  | nil => exact h none s (.refl s) hs
  | cons parentId rest ih =>
    refine Obeys.seq (obeys_query .stays fun t hst ht => ?_)
    split
    · exact ih ht fun found u htu hu => h found u (hst.trans htu) hu
    · exact h _ t hst ht

/-- A revision that a peer has sent is stored, or it is not. -/
theorem obeys_ingestReceivedRevision {now : Nat} {input : IngestInput} :
    Obeys (calls deps v cond) (fun g' _ _ => g' = .first) (fun g' _ => g' = .first)
      (SyncEngine.ingestReceivedRevision deps.toEngineDeps now input) .first s := by
  refine Obeys.seq (obeys_query .stays fun t _ ht => ?_)
  split
  · rfl
  · dsimp only
    split
    · rfl
    · refine Obeys.seq (obeys_firstMissing ht fun found u _ hu => ?_)
      cases found with
      | some parentId => rfl
      | none =>
        refine Obeys.seq (obeys_putBlob fun w _ hw hblob => ?_)
        refine Obeys.seq (Obeys.ofExcept (fun revision hrevision => ?_) fun _ _ => rfl)
        obtain ⟨-, rfl⟩ := receivedRevision_ok hrevision
        exact Obeys.seq (obeys_execute .first
          (fun tables hsave _ => ⟨.receives hblob hsave, fun _ _ _ => rfl⟩) fun _ _ _ _ _ => rfl)

end Engine

/-! ## The file -/

section File

variable {deps : ServiceDeps} {v : Tracked} {cond : Device → DeviceEvent → Prop}
  {onFail : Place → Device → Prop} {g : Stage} {call : ServiceCall} {c : Option Combination}
  {s : Device}

theorem obeys_currentVersion (hs : s.Sound deps.sha256 v) (hlooks : g.Looks) :
    Obeys (calls deps v cond)
      (fun g' t found => match found with
        | none => g' = ⟨.unbound, some call, c⟩
        | some (path, head, seen) => g' = ⟨.looked path head.id seen, some call, c⟩ ∧
          ∃ row, t.store.tables.revisions.find head.id = some row ∧ head.hash = row.hash)
      onFail currentVersion ⟨g, some call, c⟩ s := by
  obtain ⟨vault, hrow, hpath⟩ := hs.bound
  refine Obeys.seq (obeys_read ?_)
  rw [hs.tracked]
  refine Obeys.seq (obeys_read ?_)
  cases hp : vault.kdbxPath with
  | none =>
    refine Obeys.seq (obeys_query (.file (.unbound hlooks hrow (Or.inl (hpath ▸ hp))))
      fun t _ _ => ?_)
    rw [hrow]
    dsimp only
    rw [hp]
    rfl
  | some path =>
    cases hh : vault.headRevisionId with
    | none =>
      refine Obeys.seq (obeys_query (.file (.unbound hlooks hrow (Or.inr hh))) fun t _ _ => ?_)
      rw [hrow]
      dsimp only
      rw [hp, hh]
      rfl
    | some head =>
      refine Obeys.seq (obeys_query (.file (.looks hlooks hrow (hpath ▸ hp) hh))
        fun t hst ht => ?_)
      rw [hrow]
      dsimp only
      rw [hp, hh]
      obtain ⟨row, hfind, -⟩ :=
        ((SyncEngine.vaultRead hs.wellFormed hrow).mono hst.grows).head head hh
      refine Obeys.seq (obeys_query .stays fun u htu _ => ?_)
      obtain rfl : row.id = head := Table.key_of_find hfind
      simp only [Tables.getRevision, hfind, Option.map_some]
      exact ⟨rfl, row, htu.grows.tables.revisions _ _ hfind, rfl⟩

theorem obeys_holds {path : FilePath} {head : RevisionId} {seen : Nat} {hash : Sha256Hex} :
    Obeys (calls deps v cond)
      (fun g' _ same => ∃ onDisk, g' = ⟨.read path head seen onDisk, some call, c⟩ ∧
        (same = true → ∃ bytes, onDisk = some bytes ∧ deps.sha256 bytes = hash))
      onFail (holds deps path hash) ⟨.looked path head seen, some call, c⟩ s := by
  have hread : Obeys (calls deps v cond)
      (fun g' _ bytes => g' = ⟨.read path head seen (some bytes), some call, c⟩)
      (fun g' _ => g' = ⟨.read path head seen none, some call, c⟩) (VaultFile.read path)
      ⟨.looked path head seen, some call, c⟩ s := by
    apply obeys_look (.file .reads)
    intro t _ _
    cases s.files path <;> rfl
  have hattempt : Obeys (calls deps v cond)
      (fun g' _ onDisk => g' = ⟨.read path head seen onDisk.toOption, some call, c⟩)
      onFail (VaultFile.read path).attempt ⟨.looked path head seen, some call, c⟩ s :=
    hread.attempt (fun _ _ _ h => h) fun _ _ _ h => h
  apply hattempt.bind
  intro g' t onDisk h
  cases onDisk with
  | ok bytes =>
    refine Obeys.seq (obeys_wait fun u _ _ => ?_)
    exact ⟨some bytes, h, fun hsame => ⟨bytes, rfl, of_decide_eq_true hsame⟩⟩
  | error e => exact ⟨none, h, fun hsame => by cases hsame⟩

theorem obeys_isLocked {platform : Platform} {path : FilePath} {post : Place → Device → Bool → Prop}
    {g : Place}
    (h : ∀ locked t, s.Onward t → t.Sound deps.sha256 v → post g t locked) :
    Obeys (calls deps v cond) post onFail (VaultFile.isLocked platform path) g s := by
  cases platform with
  | desktop => exact obeys_look .stays fun t hst ht => h _ t hst ht
  | android => exact obeys_wait fun t hst ht => h _ t hst ht

theorem obeys_put {after : Device → Device} {path : FilePath} {head : RevisionId} {seen : Nat}
    {onDisk : Option Bytes} {bytes : Bytes} {row : RevisionRow}
    (hafter : ∀ s, ∃ files, after s = { s with files })
    (hrow : s.store.tables.revisions.find head = some row) (hhash : deps.sha256 bytes = row.hash) :
    Obeys (calls deps v cond)
      (fun g' _ outcome => g' = ⟨.wrote path head seen, some call, c⟩ ∧ outcome = .written)
      (fun g' _ => g' = ⟨.failed, some call, c⟩) (VaultFile.put after path bytes)
      ⟨.read path head seen onDisk, some call, c⟩ s := by
  by_cases hmedium : s.medium = .sound
  · rw [VaultFile.put, Obeys]
    simp only [hmedium, if_true]
    exact fun _ => ⟨_, .file (.writes hrow hhash), fun _ => obeys_wait fun _ _ _ => ⟨rfl, rfl⟩⟩
  · rw [VaultFile.put, Obeys]
    simp only [hmedium, if_false]
    obtain ⟨files, hfiles⟩ := hafter s
    refine fun _ => ⟨_, hfiles ▸ .file (.fails files), fun _ => obeys_wait fun _ _ _ => rfl⟩

theorem obeys_write {path : FilePath} {head : RevisionId} {seen : Nat} {onDisk : Option Bytes}
    {bytes : Bytes} {row : RevisionRow} {ignoreLock : Bool}
    (hrow : s.store.tables.revisions.find head = some row) (hhash : deps.sha256 bytes = row.hash) :
    Obeys (calls deps v cond)
      (fun g' _ outcome => match outcome with
        | .written => g' = ⟨.wrote path head seen, some call, c⟩
        | .refusedLocked => g' = ⟨.read path head seen onDisk, some call, c⟩)
      (fun g' _ => g' = ⟨.failed, some call, c⟩)
      (VaultFile.write deps.platform path bytes ignoreLock)
      ⟨.read path head seen onDisk, some call, c⟩ s := by
  have hput : ∀ {after : Device → Device} {t : Device},
      (∀ s, ∃ files, after s = { s with files }) → s.Onward t →
      Obeys (calls deps v cond)
        (fun g' _ outcome => match outcome with
          | .written => g' = ⟨.wrote path head seen, some call, c⟩
          | .refusedLocked => g' = ⟨.read path head seen onDisk, some call, c⟩)
        (fun g' _ => g' = ⟨.failed, some call, c⟩) (VaultFile.put after path bytes)
        ⟨.read path head seen onDisk, some call, c⟩ t := by
    intro after t hafter hst
    refine Obeys.mono (fun g' u outcome h => ?_) (fun _ _ h => h)
      (obeys_put hafter (hst.grows.tables.revisions _ _ hrow) hhash)
    obtain ⟨h, rfl⟩ := h
    exact h
  cases deps.platform with
  | desktop =>
    rw [VaultFile.write, VaultFile.writeAtomic]
    split
    · exact Obeys.seq (obeys_wait fun u hsu _ => hput (fun s => ⟨s.files, rfl⟩) hsu)
    · refine Obeys.seq (obeys_isLocked fun locked t hst _ => ?_)
      cases locked with
      | true => rfl
      | false =>
        exact Obeys.seq (obeys_wait fun u htu _ => hput (fun s => ⟨s.files, rfl⟩) (hst.trans htu))
  | android =>
    apply obeys_look .stays
    intro t hst _
    split
    · refine hput (fun s => ?_) hst
      rw [VaultFile.cutShort]
      split
      · exact ⟨_, rfl⟩
      · exact ⟨s.files, rfl⟩
    · rfl

/-- `materializeCurrentVersion` came to its end. -/
def Materialized (call : ServiceCall) (c : Option Combination) (g : Place) (s : Device) : Prop :=
  g = ⟨.held, some call, c⟩ ∨ g = ⟨.unbound, some call, c⟩ ∨ g = ⟨.cleared s.moves, some call, c⟩

theorem obeys_materializeCurrentVersion (hs : s.Sound deps.sha256 v) (hlooks : g.Looks) :
    Obeys (calls deps v cond) (fun g' t _ => Materialized call c g' t)
      (fun g' _ => g' = ⟨.failed, some call, c⟩) (materializeCurrentVersion deps)
      ⟨g, some call, c⟩ s := by
  refine (obeys_currentVersion hs hlooks).chain (serviceDiscipline_lawful cond) hs ?_
  intro g' t found hfound hst ht
  cases found with
  | none => exact Or.inr (Or.inl hfound)
  | some version =>
    obtain ⟨path, head, seen⟩ := version
    obtain ⟨rfl, row, hrow, hhash⟩ := hfound
    refine obeys_holds.chain (serviceDiscipline_lawful cond) ht ?_
    rintro g' u same ⟨onDisk, rfl, hsame⟩ htu hu
    have hrow := htu.grows.tables.revisions _ _ hrow
    split
    · obtain ⟨bytes, rfl, hbytes⟩ := hsame ‹_›
      exact fun _ => ⟨_, .file (.agrees hrow (hbytes.trans hhash)), fun _ => Or.inr (Or.inr rfl)⟩
    · refine Obeys.seq (obeys_isLocked fun locked w huw _ => ?_)
      have hrow := huw.grows.tables.revisions _ _ hrow
      split
      · exact fun _ => ⟨_, .file .holdsBack, fun _ => Or.inl rfl⟩
      · refine Obeys.seq (obeys_bytesOf hrow fun bytes x hbytes hwx _ => ?_)
        have hrow := hwx.grows.tables.revisions _ _ hrow
        refine Obeys.bind ?_ (obeys_write hrow hbytes)
        intro g' y outcome houtcome
        cases outcome with
        | written =>
          cases houtcome
          exact fun _ => ⟨_, .file .clears, fun _ => Or.inr (Or.inr rfl)⟩
        | refusedLocked =>
          cases houtcome
          exact fun _ => ⟨_, .file .refused, fun _ => Or.inr (Or.inr rfl)⟩

end File

/-! ## Conflicts -/

section Conflicts

variable {deps : ServiceDeps} {v : Tracked} {cond : Device → DeviceEvent → Prop}
  {onFail : Place → Device → Prop} {g g' : Stage} {call : ServiceCall} {c : Option Combination}
  {s : Device}

theorem recordConflictDecision_open {conflict : Conflict} (hopen : conflict.status = .open)
    (decision : ConflictDecision) (now : Nat) :
    ∃ decided, recordConflictDecision conflict decision now = .ok decided ∧
      conflict.DecidedAs decided := by
  have hassert : assert (decide (conflict.status = .open)) "only open conflicts can be decided" =
      .ok () := by
    rw [hopen]
    rfl
  simp only [recordConflictDecision, hassert]
  refine ⟨_, rfl, rfl, rfl, rfl, rfl, ?_⟩
  cases decision <;> simp

/-- One decision, and what follows it. -/
theorem obeys_decided {α : Type} {post : Place → Device → α → Prop} {conflict : Conflict}
    {decision : ConflictDecision} {now : Nat} {p : OnDevice α} (hs : s.Sound deps.sha256 v)
    (hvault : conflict.vaultId = v.vaultId) (hopen : conflict.status = .open)
    (hdecides : Stage.Decides g conflict g')
    (h : ∀ t, s.Onward t → t.Sound deps.sha256 v →
      Obeys (calls deps v cond) post onFail p ⟨g', some call, c⟩ t) :
    Obeys (calls deps v cond) post onFail (do
      let decided ← Async.ofExcept (recordConflictDecision conflict decision now)
      saveConflict decided (.decided decided)
      p) ⟨g, some call, c⟩ s := by
  obtain ⟨decided, hrecord, hdecided⟩ := recordConflictDecision_open hopen decision now
  rw [hrecord, Async.ofExcept_ok, Async.done_bind]
  have hstored : s.store.tables.vaults.has decided.vaultId = true := by
    obtain ⟨vault, hrow, -⟩ := hs.bound
    rw [hdecided.vaultId, hvault]
    exact Table.has_iff.mpr ⟨vault, hrow⟩
  refine Obeys.seq (obeys_execute ⟨g', some call, c⟩ (fun tables hsave _ => ?_) fun e he => ?_)
  · refine ⟨.store (.decides hdecides hdecided hsave), fun t hst ht => h t ?_ ht⟩
    exact ⟨(Store.grows_saveConflict hsave).trans hst.grows, hst.moves⟩
  · rw [Tables.saveConflict, if_pos (Or.inr hstored)] at he
    cases he

theorem obeys_decideAll {conflicts : List Conflict} {decision : ConflictDecision} {now : Nat}
    (hs : s.Sound deps.sha256 v)
    (hopen : ∀ x ∈ conflicts, x.vaultId = v.vaultId ∧ x.status = .open) :
    Obeys (calls deps v cond) (fun g' _ _ => g' = ⟨.deciding [], some call, c⟩) onFail
      (decideAll now decision conflicts) ⟨.deciding conflicts, some call, c⟩ s := by
  induction conflicts generalizing s with
  | nil => rfl
  | cons conflict rest ih =>
    obtain ⟨⟨hvault, hstatus⟩, hrest⟩ := List.forall_mem_cons.mp hopen
    exact obeys_decided hs hvault hstatus .deciding fun t _ ht => ih ht hrest

end Conflicts

/-! ## Sessions -/

section Sessions

variable {deps : ServiceDeps} {v : Tracked} {cond : Device → DeviceEvent → Prop}
  {call : ServiceCall} {s : Device}

/-- The call has combined nothing, and nothing must follow. -/
def MayEnd (call : ServiceCall) (g : Place) : Prop :=
  ∃ stage, g = ⟨stage, some call, none⟩ ∧ stage.mayEnd

theorem mayEnd_calm (call : ServiceCall) : MayEnd call ⟨.calm, some call, none⟩ :=
  ⟨_, rfl, trivial⟩

theorem Materialized.mayEnd {g : Place} (h : Materialized call none g s) : MayEnd call g := by
  obtain rfl | rfl | rfl := h <;> exact ⟨_, rfl, trivial⟩

theorem obeys_materialize {g : Stage} (hs : s.Sound deps.sha256 v) (hlooks : g.Looks) :
    Obeys (calls deps v cond) (fun g' _ _ => MayEnd call g') (fun g' _ => MayEnd call g')
      (materializeCurrentVersion deps) ⟨g, some call, none⟩ s :=
  (obeys_materializeCurrentVersion hs hlooks).mono (fun _ _ _ h => h.mayEnd)
    fun _ _ h => ⟨_, h, trivial⟩

theorem obeys_openConflictFor {now : Nat} {conflictId : ConflictId} {head remoteHead : RevisionId}
    {summary : List HistorySummaryEntry} :
    Obeys (calls deps v cond) (fun g' _ _ => MayEnd call g') (fun g' _ => MayEnd call g')
      (openConflictFor now conflictId v.vaultId remoteHead)
      ⟨.judged head remoteHead summary, some call, none⟩ s := by
  have hjudged : MayEnd call ⟨.judged head remoteHead summary, some call, none⟩ :=
    ⟨_, rfl, trivial⟩
  refine Obeys.seq (obeys_query .stays fun t _ ht => ?_)
  have hrevision : Obeys (calls deps v cond)
      (fun g' _ _ => g' = ⟨.judged head remoteHead summary, some call, none⟩)
      (fun g' _ => MayEnd call g')
      (revisionOf ((s.store.tables.getVault v.vaultId).bind (·.headRevisionId)))
      ⟨.judged head remoteHead summary, some call, none⟩ t := by
    cases (s.store.tables.getVault v.vaultId).bind (·.headRevisionId) with
    | none => rfl
    | some revisionId =>
      rw [revisionOf]
      exact obeys_query .stays fun _ _ _ => rfl
  refine hrevision.chain (serviceDiscipline_lawful cond) ht ?_
  rintro g' u current rfl - hu
  refine Obeys.seq (obeys_query .stays fun w huw hw => ?_)
  split
  · rename_i vault current incoming hvault hincoming
    refine Obeys.seq (obeys_query .stays fun x hwx hx => ?_)
    split
    · exact hjudged
    · refine Obeys.seq (Obeys.ofExcept (fun conflict hconflict => ?_) fun _ _ => hjudged)
      rw [openConflict] at hconflict
      obtain ⟨_, -, hconflict⟩ := bind_eq_ok.mp hconflict
      obtain ⟨_, -, hconflict⟩ := bind_eq_ok.mp hconflict
      obtain ⟨_, -, hconflict⟩ := bind_eq_ok.mp hconflict
      cases hconflict
      obtain ⟨row, hrow, rfl⟩ := Tables.getRevision_eq_some.mp hincoming
      have hvaultId : vault.id = v.vaultId := Table.key_of_find hvault
      obtain rfl : row.id = remoteHead := Table.key_of_find hrow
      have hstored : x.store.tables.hasRevision row.id = true :=
        Table.has_iff.mpr ⟨row, (huw.trans hwx).grows.tables.revisions _ _ hrow⟩
      refine Obeys.seq (obeys_execute ⟨.finished, some call, none⟩ (fun tables hsave _ => ?_)
        fun _ _ _ _ _ => hjudged)
      exact ⟨.store (.opens hvaultId rfl hstored hsave), fun _ _ _ => ⟨_, rfl, trivial⟩⟩
  · exact hjudged

theorem obeys_classify {now : Nat} {conflictId : ConflictId} {session : SessionEnd}
    {onFail : Place → Device → Prop} (hs : s.Sound deps.sha256 v)
    (hcall : call = .endSession now conflictId session) :
    Obeys (calls deps v cond)
      (fun g' _ divergence => match divergence with
        | .diverged _ => ∃ head remoteHead, session.remoteHead = some remoteHead ∧
          g' = ⟨.judged head remoteHead session.summary, some call, none⟩
        | _ => g' = ⟨.calm, some call, none⟩)
      onFail (SyncSession.classify v.vaultId (buildGraph (summaryNodes session.summary))
        session.remoteHead)
      ⟨.calm, some call, none⟩ s := by
  obtain ⟨vault, hrow, -⟩ := hs.bound
  cases hhead : vault.headRevisionId with
  | none =>
    refine Obeys.seq (obeys_query .stays fun t _ _ => ?_)
    rw [hrow, Option.bind_some, hhead]
    cases session.remoteHead <;> rfl
  | some head =>
    cases hremote : session.remoteHead with
    | none =>
      refine Obeys.seq (obeys_query .stays fun t _ _ => ?_)
      rw [hrow, Option.bind_some, hhead]
      rfl
    | some remoteHead =>
      have hcombines : call.combines = false := hcall ▸ rfl
      refine Obeys.seq (obeys_query (.store (.seesHead hcombines hrow hhead)) fun t _ _ => ?_)
      rw [hrow, Option.bind_some, hhead]
      have hjudges : StoreSteps deps.sha256 v call none (.heads head) t [] t
          (match t.store.tables.verdict v.vaultId session.summary head remoteHead with
          | .diverged _ => .judged head remoteHead session.summary
          | _ => .calm) := .judges hcall
      refine Obeys.seq (obeys_query (.store hjudges) fun u _ _ => ?_)
      change Obeys (calls deps v cond) _ _
        (.done (t.store.tables.verdict v.vaultId session.summary head remoteHead)) _ u
      cases t.store.tables.verdict v.vaultId session.summary head remoteHead with
      | diverged => exact ⟨head, remoteHead, rfl, rfl⟩
      | equal | localAhead | remoteAhead | unrelated => rfl

theorem obeys_finishSession {now : Nat} {conflictId : ConflictId} {session : SessionEnd}
    {divergence : Divergence} {g : Place} (hs : s.Sound deps.sha256 v)
    (hcall : call = .endSession now conflictId session)
    (hg : match divergence with
      | .diverged _ => ∃ head remoteHead, session.remoteHead = some remoteHead ∧
        g = ⟨.judged head remoteHead session.summary, some call, none⟩
      | _ => g = ⟨.calm, some call, none⟩) :
    Obeys (calls deps v cond) (fun g' _ _ => MayEnd call g') (fun g' _ => MayEnd call g')
      (finishSession deps now conflictId v.vaultId session.remoteHead divergence) g s := by
  have hactive : Device.Idle deps.sha256 s { s with
      vaultId := some v.vaultId
      store := s.store.setTables (s.store.tables.saveSetting activeVaultKey v.vaultId.value) } :=
    ⟨by rw [hs.tracked], Store.quiet_setTables rfl rfl rfl rfl⟩
  refine Obeys.seq fun _ => ⟨g, .idle hactive (by simp), fun ht => ?_⟩
  cases hremote : session.remoteHead with
  | none =>
    cases divergence with
    | diverged => obtain ⟨_, _, hsome, -⟩ := hg; rw [hremote] at hsome; cases hsome
    | equal | localAhead | remoteAhead | unrelated => exact hg ▸ mayEnd_calm call
  | some remoteHead =>
    cases divergence with
    | diverged =>
      obtain ⟨head, remoteHead', hsome, rfl⟩ := hg
      rw [hremote] at hsome
      cases hsome
      exact Obeys.seq (obeys_openConflictFor.mono (fun _ _ _ h => h) fun _ _ h => h)
    | remoteAhead =>
      subst hg
      have hplain : call.plain = true := hcall ▸ rfl
      have hforward : Obeys (calls deps v cond)
          (fun g' _ _ => g' = ⟨.owing .writeBack, some call, none⟩) (fun g' _ => MayEnd call g')
          (SyncEngine.fastForward now v.vaultId remoteHead 0) ⟨.calm, some call, none⟩ _ :=
        (obeys_fastForward ht (.calm hplain) (by simp)).mono (fun _ _ _ h => h)
          fun _ _ h => h ▸ mayEnd_calm call
      refine hforward.chain (serviceDiscipline_lawful cond) ht ?_
      rintro g' u _ rfl - hu
      exact obeys_materialize hu .owing
    | equal | localAhead | unrelated => exact hg ▸ mayEnd_calm call

end Sessions

/-! ## Calls -/

section Calls

variable {deps : ServiceDeps} {v : Tracked} {cond : Device → DeviceEvent → Prop}
  {call : ServiceCall} {s : Device}

theorem obeys_endSession {now : Nat} {conflictId : ConflictId} {session : SessionEnd}
    (hs : s.Sound deps.sha256 v) (hcall : call = .endSession now conflictId session)
    (hvault : session.vaultId = v.vaultId) :
    Obeys (calls deps v cond) (fun g' _ _ => MayEnd call g') (fun g' _ => MayEnd call g')
      (endSession deps now conflictId session) ⟨.calm, some call, none⟩ s := by
  have hcalm := mayEnd_calm call
  refine Obeys.seq (Obeys.ofExcept (fun _ _ => ?_) fun _ _ => hcalm)
  rw [hvault]
  have hrest : ∀ t : Device, t.Sound deps.sha256 v → Obeys (calls deps v cond)
      (fun g' _ _ => MayEnd call g') (fun g' _ => MayEnd call g') (do
        let divergence ← SyncSession.classify v.vaultId
          (buildGraph (summaryNodes session.summary)) session.remoteHead
        finishSession deps now conflictId v.vaultId session.remoteHead divergence)
      ⟨.calm, some call, none⟩ t := by
    intro t ht
    refine (obeys_classify ht hcall).chain (serviceDiscipline_lawful cond) ht ?_
    exact fun g' u divergence hg _ hu => obeys_finishSession hu hcall hg
  split
  · refine Obeys.seq (obeys_execute ⟨.calm, some call, none⟩ (fun tables hsave _ => ?_)
      fun _ _ _ _ _ => hcalm)
    rw [Tables.recordPeerHead] at hsave
    split at hsave <;> cases hsave
    exact ⟨.idle ⟨rfl, Store.quiet_setTables rfl rfl rfl rfl⟩ (by simp), fun t _ ht => hrest t ht⟩
  · exact hrest s hs

theorem obeys_readSaved {path : FilePath} (hplain : call.plain = true) :
    Obeys (calls deps v cond)
      (fun g' _ saved => g' = ⟨.saved saved.1 saved.2, some call, none⟩)
      (fun g' _ => g' = ⟨.calm, some call, none⟩) (VaultFile.readSaved path)
      ⟨.calm, some call, none⟩ s := by
  refine fun _ => ⟨_, .file (.readsSaved hplain), fun _ => obeys_wait fun t _ _ => ?_⟩
  cases s.files path <;> rfl

theorem obeys_record {stamp : Stamp} {saved : Bytes × Nat}
    (hfresh : ∀ s e, cond s e → SyncEngine.FreshIds s e) (hs : s.Sound deps.sha256 v) :
    Obeys (calls deps v cond) (fun g' _ _ => MayEnd call g') (fun g' _ => MayEnd call g')
      (record deps stamp v.vaultId saved) ⟨.saved saved.1 saved.2, some call, none⟩ s := by
  have hlocal : Obeys (calls deps v cond)
      (fun g' _ result => match result with
        | .recorded _ => g' = ⟨.owing .clear, some call, none⟩
        | .unchanged _ => ∃ vault, g' = ⟨.compared saved.1 vault, some call, none⟩)
      (fun g' _ => MayEnd call g')
      (SyncEngine.recordLocalChange deps.toEngineDeps stamp v.vaultId saved.1 saved.2)
      ⟨.saved saved.1 saved.2, some call, none⟩ s :=
    (obeys_recordLocalChange hfresh hs).mono (fun _ _ _ h => h) fun _ _ h => h.elim
  apply hlocal.bind
  intro g' t result h
  cases result with
  | recorded revision =>
    subst h
    exact fun _ => ⟨_, .file .forgets, fun _ => ⟨_, rfl, trivial⟩⟩
  | unchanged revisionId =>
    obtain ⟨vault, rfl⟩ := h
    exact ⟨_, rfl, trivial⟩

theorem obeys_onChange {stamp : Stamp} {saved : Bytes × Nat}
    (hfresh : ∀ s e, cond s e → SyncEngine.FreshIds s e) (hs : s.Sound deps.sha256 v) :
    Obeys (calls deps v cond) (fun g' _ _ => MayEnd call g') (fun g' _ => MayEnd call g')
      (onChange deps stamp saved) ⟨.saved saved.1 saved.2, some call, none⟩ s := by
  refine Obeys.seq (obeys_read ?_)
  rw [hs.tracked]
  exact obeys_record hfresh hs

theorem obeys_trackedPath {post : Place → Device → Option FilePath → Prop}
    {onFail : Place → Device → Prop} {g : Place}
    (h : ∀ path t, s.Onward t → t.Sound deps.sha256 v → post g t path) :
    Obeys (calls deps v cond) post onFail (trackedPath v.vaultId) g s :=
  Obeys.seq (obeys_query .stays fun t hst ht => h _ t hst ht)

theorem obeys_recordFileNow {stamp : Stamp} (hfresh : ∀ s e, cond s e → SyncEngine.FreshIds s e)
    (hs : s.Sound deps.sha256 v) (hplain : call.plain = true) :
    Obeys (calls deps v cond) (fun g' _ _ => MayEnd call g') (fun g' _ => MayEnd call g')
      (recordFileNow deps stamp) ⟨.calm, some call, none⟩ s := by
  refine Obeys.seq (obeys_read ?_)
  rw [hs.tracked]
  refine Obeys.seq (obeys_trackedPath fun path t _ ht => ?_)
  cases path with
  | none => exact mayEnd_calm call
  | some path =>
    have hread : Obeys (calls deps v cond)
        (fun g' _ saved => g' = ⟨.saved saved.1 saved.2, some call, none⟩)
        (fun g' _ => MayEnd call g') (VaultFile.readSaved path) ⟨.calm, some call, none⟩ t :=
      (obeys_readSaved hplain).mono (fun _ _ _ h => h) fun _ _ h => h ▸ mayEnd_calm call
    refine hread.chain (serviceDiscipline_lawful cond) ht ?_
    rintro g' u saved rfl - hu
    exact obeys_record hfresh hu

/-- Where a call is when it has tried to read the file. -/
def Tried (call : ServiceCall) (g : Place) : Except Failure (Bytes × Nat) → Prop
  | .ok saved => g = ⟨.saved saved.1 saved.2, some call, none⟩
  | .error _ => g = ⟨.calm, some call, none⟩

theorem obeys_deliver {stamp : Stamp} {path : FilePath}
    (hfresh : ∀ s e, cond s e → SyncEngine.FreshIds s e) (hs : s.Sound deps.sha256 v)
    (hplain : call.plain = true) :
    Obeys (calls deps v cond) (fun g' _ _ => MayEnd call g') (fun g' _ => MayEnd call g')
      (deliver deps stamp path) ⟨.calm, some call, none⟩ s := by
  have hattempt : ∀ t, Obeys (calls deps v cond)
      (fun g' _ result => Tried call g' result)
      (fun g' _ => MayEnd call g') (VaultFile.readSaved path).attempt ⟨.calm, some call, none⟩ t :=
    fun t => (obeys_readSaved hplain).attempt (fun _ _ _ h => h) fun _ _ _ h => h
  refine (hattempt s).chain (serviceDiscipline_lawful cond) hs ?_
  intro g' t result h _ ht
  cases result with
  | ok saved =>
    cases h
    exact obeys_onChange hfresh ht
  | error e =>
    cases h
    refine Obeys.seq (obeys_wait fun u _ hu => ?_)
    refine (hattempt u).chain (serviceDiscipline_lawful cond) hu ?_
    intro g' w result h _ hw
    cases result with
    | ok saved =>
      cases h
      exact obeys_onChange hfresh hw
    | error e =>
      cases h
      exact mayEnd_calm call

theorem obeys_promoteCall {now : Nat} {revisionId : RevisionId} (hs : s.Sound deps.sha256 v)
    (hplain : call.plain = true) :
    Obeys (calls deps v cond) (fun g' _ _ => MayEnd call g') (fun g' _ => MayEnd call g')
      (VaultServices.promote deps now revisionId) ⟨.calm, some call, none⟩ s := by
  refine Obeys.seq (Obeys.seq (obeys_read ?_))
  rw [hs.tracked]
  have hpromote : Obeys (calls deps v cond)
      (fun g' _ _ => g' = ⟨.owing .writeBack, some call, none⟩) (fun g' _ => MayEnd call g')
      (SyncEngine.promote now v.vaultId revisionId) ⟨.calm, some call, none⟩ s :=
    (obeys_promote hs (.calm hplain) (by simp)).mono (fun _ _ _ h => h)
      fun _ _ h => h ▸ mayEnd_calm call
  refine hpromote.chain (serviceDiscipline_lawful cond) hs ?_
  rintro g' t _ rfl - ht
  exact obeys_materialize ht .owing

theorem obeys_resolveConflict {now : Nat} {conflictId : ConflictId} {choice : ConflictChoice}
    (hs : s.Sound deps.sha256 v) (hresolves : call.resolves = some conflictId) :
    Obeys (calls deps v cond) (fun g' _ _ => MayEnd call g') (fun g' _ => MayEnd call g')
      (resolveConflict deps now conflictId choice) ⟨.calm, some call, none⟩ s := by
  refine Obeys.seq (Obeys.seq (obeys_read ?_))
  rw [hs.tracked]
  have hmaterialize : ∀ t : Device, t.Sound deps.sha256 v → Obeys (calls deps v cond)
      (fun g' _ _ => MayEnd call g') (fun g' _ => MayEnd call g')
      (materializeCurrentVersion deps) ⟨.owing .writeBack, some call, none⟩ t :=
    fun t ht => obeys_materialize ht .owing
  cases hfind : (s.store.tables.listOpenConflicts v.vaultId).find? (·.id = conflictId) with
  | none =>
    refine Obeys.seq (obeys_query .stays fun t _ _ => ?_)
    rw [hfind]
    exact mayEnd_calm call
  | some conflict =>
    have hmem := List.mem_of_find?_eq_some hfind
    obtain ⟨-, hvault, hopen⟩ := Tables.mem_listOpenConflicts.mp hmem
    have hid : conflict.id = conflictId := by simpa using List.find?_some hfind
    refine Obeys.seq (obeys_query (.store (.finds (hid ▸ hresolves) hmem))
      fun t _ ht => ?_)
    rw [hfind]
    dsimp only
    split
    · have hpromote : Obeys (calls deps v cond)
          (fun g' _ _ => g' = ⟨.owing (.decide conflict), some call, none⟩)
          (fun g' _ => MayEnd call g')
          (SyncEngine.promote now v.vaultId conflict.incomingRevisionId)
          ⟨.found conflict, some call, none⟩ t :=
        (obeys_promote ht .found (by simp)).mono (fun _ _ _ h => h)
          fun _ _ h => ⟨_, h, trivial⟩
      refine hpromote.chain (serviceDiscipline_lawful cond) ht ?_
      rintro g' u _ rfl - hu
      exact Obeys.seq (obeys_decided hu hvault hopen .owing fun w _ hw => hmaterialize w hw)
    · exact Obeys.seq (obeys_decided ht hvault hopen .found fun w _ hw => hmaterialize w hw)

theorem obeys_mergeCall {stamp : Stamp} {head other : RevisionId}
    (hfresh : ∀ s e, cond s e → SyncEngine.FreshIds s e) (hs : s.Sound deps.sha256 v) :
    Obeys (calls deps v cond)
      (fun g' _ answer => match answer with
        | .merged revisionId => g' = ⟨.merging, some call, some ⟨head, other, revisionId⟩⟩
        | _ => g' = ⟨.based head other, some call, none⟩)
      (fun g' _ => g' = ⟨.based head other, some call, none⟩)
      (VaultServices.merge deps stamp head [other]) ⟨.based head other, some call, none⟩ s := by
  refine Obeys.seq (Obeys.seq (obeys_read ?_))
  rw [hs.tracked]
  refine (obeys_merge hfresh).bind fun g' t outcome h => ?_
  cases outcome <;> exact h

/-- `combineAndUse` may throw before the head has moved, or when the file is written. -/
def BreaksOff (call : ServiceCall) (g : Place) : Prop :=
  MayEnd call g ∨ ∃ stage x, g = ⟨stage, some call, some x⟩ ∧ (stage = .merging ∨ stage = .failed)

theorem obeys_combineAndUse {stamp : Stamp} {other : RevisionId}
    (hfresh : ∀ s e, cond s e → SyncEngine.FreshIds s e) (hs : s.Sound deps.sha256 v)
    (hcombines : call.combines = true) :
    Obeys (calls deps v cond)
      (fun g' t answer => match answer with
        | .merged revisionId => ∃ x, x.result = revisionId ∧ Materialized call (some x) g' t
        | _ => MayEnd call g')
      (fun g' _ => BreaksOff call g') (combineAndUse deps stamp other)
      ⟨.calm, some call, none⟩ s := by
  refine Obeys.seq (Obeys.seq (obeys_read ?_))
  rw [hs.tracked]
  refine Obeys.seq (obeys_query .stays fun t _ ht => ?_)
  split
  · exact mayEnd_calm call
  · rename_i head _
    have hbased : MayEnd call ⟨.based head other, some call, none⟩ := ⟨_, rfl, trivial⟩
    refine Obeys.seq fun _ => ⟨_, .store (.bases hcombines), fun _ => ?_⟩
    have hmerge : Obeys (calls deps v cond)
        (fun g' _ answer => match answer with
          | .merged revisionId => g' = ⟨.merging, some call, some ⟨head, other, revisionId⟩⟩
          | _ => g' = ⟨.based head other, some call, none⟩)
        (fun g' _ => BreaksOff call g') (VaultServices.merge deps stamp head [other])
        ⟨.based head other, some call, none⟩ t :=
      (obeys_mergeCall hfresh ht).mono (fun _ _ _ h => h) fun _ _ h => Or.inl (h ▸ hbased)
    refine hmerge.chain (serviceDiscipline_lawful cond) ht ?_
    intro g' u answer h _ hu
    cases answer with
    | needsCredentials | failed => exact h ▸ hbased
    | merged revisionId =>
      cases h
      refine Obeys.chain (serviceDiscipline_lawful cond) (Obeys.mono (fun _ _ _ h => h)
        (fun _ _ h => Or.inr ⟨_, _, h, Or.inl rfl⟩) (obeys_promote hu .merging (by simp))) hu ?_
      rintro g' w _ rfl - hw
      refine Obeys.seq (obeys_query (.store .lists) fun x _ hx => ?_)
      have hopen : ∀ y ∈ w.store.tables.listOpenConflicts v.vaultId,
          y.vaultId = v.vaultId ∧ y.status = .open :=
        fun y hy => (Tables.mem_listOpenConflicts.mp hy).2
      refine (obeys_decideAll hx hopen).chain (serviceDiscipline_lawful cond) hx ?_
      rintro g' y _ rfl - hy
      refine Obeys.bind ?_ (Obeys.mono (fun _ _ _ h => h)
        (fun _ _ h => Or.inr ⟨_, _, h, Or.inr rfl⟩) (obeys_materializeCurrentVersion hy .deciding))
      exact fun g' z _ h => ⟨_, rfl, h⟩

theorem obeys_applyPendingUpdate (hs : s.Sound deps.sha256 v) :
    Obeys (calls deps v cond)
      (fun g' t answer => match answer with
        | .written _ => Materialized call none g' t
        | _ => MayEnd call g')
      (fun g' _ => MayEnd call g') (applyPendingUpdate deps) ⟨.calm, some call, none⟩ s := by
  refine Obeys.seq (obeys_read ?_)
  rw [hs.tracked]
  refine Obeys.seq (obeys_trackedPath fun path t _ ht => ?_)
  cases path with
  | none => exact mayEnd_calm call
  | some path =>
    refine Obeys.seq (obeys_isLocked fun locked u _ hu => ?_)
    split
    · exact mayEnd_calm call
    · refine Obeys.bind ?_ (Obeys.mono (fun _ _ _ h => h) (fun _ _ h => ⟨_, h, trivial⟩)
        (obeys_materializeCurrentVersion hu .calm))
      exact fun g' w _ h => h

/-! ## Whole calls -/

/-- The call may settle so. -/
def Settles (deps : ServiceDeps) (v : Tracked) (call : ServiceCall)
    (answer : Except Failure ServiceAnswer) (g : Place) (s : Device) : Prop :=
  ∃ g', ServiceSteps deps.sha256 v g s [.settled call answer] (call.ended s) g'

theorem MayEnd.settles {g : Place} (h : MayEnd call g) {answer : Except Failure ServiceAnswer}
    (hwritten : ∀ path, answer ≠ .ok (.writeBack (.written path))) :
    Settles deps v call answer g s := by
  obtain ⟨stage, rfl, hend⟩ := h
  exact ⟨_, .settles hend (fun _ _ x hx => by cases hx) fun path h => absurd h (hwritten path)⟩

theorem Materialized.settles {c : Option Combination} {g : Place} (h : Materialized call c g s)
    {answer : Except Failure ServiceAnswer}
    (hmerged : ∀ x, c = some x → answer = .ok (.merge (.merged x.result))) :
    Settles deps v call answer g s := by
  obtain rfl | rfl | rfl := h
  all_goals refine ⟨_, .settles trivial (fun _ _ => hmerged) fun _ _ => ?_⟩
  · exact Or.inl rfl
  · exact Or.inr (Or.inl rfl)
  · exact Or.inr (Or.inr rfl)

theorem obeys_finish {p : OnDevice Unit} {g : Place}
    (h : Obeys (calls deps v cond) (fun g' _ _ => MayEnd call g') (fun g' _ => MayEnd call g') p g
      s) :
    Obeys (calls deps v cond) (fun g' t answer => Settles deps v call (.ok answer) g' t)
      (fun g' t => ∀ e, Settles deps v call (.error e) g' t) (ServiceCall.finish p) g s := by
  refine Obeys.bind (fun g' t _ h => ?_)
    (h.mono (fun _ _ _ h => h) fun g' t h e => h.settles fun _ he => by cases he)
  exact h.settles fun _ he => by cases he

theorem obeys_run (hfresh : ∀ s e, cond s e → SyncEngine.FreshIds s e)
    (hcall : call.writesOut = false)
    (hsession : ∀ now conflictId session, call = .endSession now conflictId session →
      session.vaultId = v.vaultId)
    (hs : s.Sound deps.sha256 v) :
    Obeys (calls deps v cond) (fun g' t answer => Settles deps v call (.ok answer) g' t)
      (fun g' t => ∀ e, Settles deps v call (.error e) g' t) (call.run deps)
      ⟨.calm, some call, none⟩ s := by
  cases hc : call with
  | recordFileNow stamp => exact obeys_finish (obeys_recordFileNow hfresh hs rfl)
  | deliver stamp path => exact obeys_finish (obeys_deliver hfresh hs rfl)
  | promote now revisionId => exact obeys_finish (obeys_promoteCall hs rfl)
  | resolveConflict now conflictId choice => exact obeys_finish (obeys_resolveConflict hs rfl)
  | unlockTick => exact obeys_finish (obeys_materialize hs .calm)
  | endSession now conflictId session =>
    exact obeys_finish (obeys_endSession hs rfl (hsession _ _ _ hc))
  | combineAndUse stamp other =>
    refine Obeys.bind ?_ (Obeys.mono (fun _ _ _ h => h) ?_ (obeys_combineAndUse hfresh hs rfl))
    · intro g' t answer h
      cases answer with
      | merged revisionId =>
        obtain ⟨x, rfl, h⟩ := h
        exact h.settles fun y hy => by cases hy; rfl
      | needsCredentials | failed => exact MayEnd.settles h fun _ he => by cases he
    · rintro g' t (h | ⟨stage, x, rfl, hstage⟩) e
      · exact h.settles fun _ he => by cases he
      · refine ⟨_, .settles ?_ (fun hm hf => ?_) fun _ he => by cases he⟩
        · obtain rfl | rfl := hstage <;> trivial
        · exact absurd hstage (by simp [hm, hf])
  | applyPendingUpdate =>
    refine Obeys.bind ?_ (Obeys.mono (fun _ _ _ h => h) ?_ (obeys_applyPendingUpdate hs))
    · intro g' t answer h
      cases answer with
      | written path => exact Materialized.settles h fun x hx => by cases hx
      | refusedLocked | failed => exact MayEnd.settles h fun _ he => by cases he
    · exact fun g' t h e => h.settles fun _ he => by cases he
  | writeBack | saveVaultAs => rw [hc] at hcall; cases hcall

theorem obeys_program (hfresh : ∀ s e, cond s e → SyncEngine.FreshIds s e)
    (hcall : call.writesOut = false)
    (hsession : ∀ now conflictId session, call = .endSession now conflictId session →
      session.vaultId = v.vaultId) :
    Obeys (calls deps v cond) (fun _ _ _ => True) (fun _ _ => True) (call.program deps) .first
      s := by
  refine Obeys.seq fun _ => ⟨_, .starts, fun ht => ?_⟩
  have hattempt : Obeys (calls deps v cond)
      (fun g' u answer => Settles deps v call answer g' u) (fun _ _ => True)
      (call.run deps).attempt ⟨.calm, some call, none⟩ (call.begun s) :=
    (obeys_run hfresh hcall hsession ht).attempt (fun _ _ _ h => h) fun _ _ e h => h e
  apply hattempt.bind
  intro g' u answer h
  obtain ⟨g'', hstep⟩ := h
  exact fun _ => ⟨g'', hstep, fun _ => trivial⟩

/-! ## The rest of the device -/

theorem obeys_onSession {f : Session → Session × List Output} {g : Place} {k : Nat}
    {post : Place → Device → Unit → Prop} {onFail : Place → Device → Prop}
    (h : ∀ t, post g t ()) :
    Obeys (calls deps v cond) post onFail (SyncSession.onSession k f) g s := by
  refine fun _ => ⟨g, .idle ⟨rfl, .refl _ _⟩ fun e he => ?_, fun _ => h _⟩
  obtain ⟨output, -, rfl⟩ := List.mem_map.mp he
  trivial

theorem obeys_ingestNext {now : Nat} {inbound : InboundHeader} {bytes : Bytes} :
    Obeys (calls deps v cond) (fun _ _ _ => True) (fun _ _ => True)
      (SyncSession.ingestNext 0 deps.toEngineDeps now inbound bytes : OnDevice Unit) .first s := by
  have hingest : ∀ t : Device, Obeys (calls deps v cond) (fun g' _ _ => g' = .first)
      (fun g' _ => g' = .first) (SyncSession.ingest 0 deps.toEngineDeps now inbound bytes) .first
      t := by
    intro t
    apply obeys_ingestReceivedRevision.bind
    intro g' u result h
    cases h
    cases result <;> exact obeys_onSession fun _ => rfl
  have hreject : ∀ t : Device, Obeys (calls deps v cond) (fun g' _ _ => g' = .first)
      (fun g' _ => g' = .first) (SyncSession.ingestOrReject 0 deps.toEngineDeps now inbound bytes)
      .first t := by
    intro t
    have hattempt : Obeys (calls deps v cond) (fun g' _ _ => g' = .first)
        (fun g' _ => g' = .first)
        (SyncSession.ingest 0 deps.toEngineDeps now inbound bytes).attempt .first t :=
      (hingest t).attempt (fun _ _ _ h => h) fun _ _ _ h => h
    apply hattempt.bind
    intro g' u result h
    cases h
    cases result with
    | ok _ => rfl
    | error e => exact obeys_onSession fun _ => rfl
  refine Obeys.seq (obeys_onSession fun t => ?_)
  have hattempt : Obeys (calls deps v cond) (fun g' _ _ => g' = .first) (fun _ _ => True)
      (SyncSession.ingestOrReject 0 deps.toEngineDeps now inbound bytes).attempt .first t :=
    (hreject t).attempt (fun _ _ _ h => h) fun _ _ _ h => h
  apply hattempt.bind
  intro g' u _ h
  cases h
  exact obeys_onSession fun _ => trivial

/-- Whatever happens to the device follows the steps. -/
theorem obeys_services {admitted : Device → ServiceCall → Bool}
    (hfresh : ∀ s e, cond s e → SyncEngine.FreshIds s e)
    (hadmitted : ∀ s call, admitted s call = true → call.writesOut = false)
    {command : ServiceCommand} {p : OnDevice Unit} (hs : s.Sound deps.sha256 v)
    (hp : services deps admitted command s = some p) :
    Obeys (calls deps v cond) (fun _ _ _ => True) (fun _ _ => True) p .first s := by
  cases command with
  | call call =>
    rw [services] at hp
    split at hp <;> cases hp
    rename_i hcall
    rw [Bool.and_eq_true] at hcall
    apply obeys_program hfresh (hadmitted _ _ hcall.2)
    intro now conflictId session heq
    have hpossible := hcall.1
    rw [heq, ServiceCall.possible, hs.tracked] at hpossible
    exact (Option.some.inj (of_decide_eq_true hpossible)).symm
  | ingestNext now inbound bytes =>
    rw [services] at hp
    split at hp <;> cases hp
    exact obeys_ingestNext
  | lock | grant | medium =>
    cases hp
    exact fun _ => ⟨.first, .idle ⟨rfl, .refl _ _⟩ (by simp), fun _ => trivial⟩

/-- What holds when nothing has happened yet, and is kept when a program begins and by every step,
holds at the end of every run. -/
theorem trace_holds {admitted : Device → ServiceCall → Bool}
    (hfresh : ∀ s e, cond s e → SyncEngine.FreshIds s e)
    (hadmitted : ∀ s call, admitted s call = true → call.writesOut = false)
    {P : (Nat → Option Place) → Device → List (Record Device DeviceEvent) → Prop}
    (hbegin : ∀ places (i : Nat) s log, places i = none → P places s log →
      P (Function.update places i (some .first)) s log)
    (hstep : ∀ places (i : Nat) g s log events t g', places i = some g → P places s log →
      s.Sound deps.sha256 v → t.Sound deps.sha256 v → (∀ e ∈ events, cond s e) →
      ServiceSteps deps.sha256 v g s events t g' →
      P (Function.update places i (some g')) t (log ++ events.map (⟨i, s, ·⟩)))
    {start : Device} (hstart : start.Sound deps.sha256 v) (hinitial : P (fun _ => none) start [])
    {moves : List (Move ServiceCommand)} {w : Pool Device DeviceEvent Failure}
    {log : List (Record Device DeviceEvent)}
    (h : (⟨start, []⟩ : Pool Device DeviceEvent Failure).trace (services deps admitted) moves =
      some (w, log)) (hcond : ∀ x ∈ log, cond x.state x.event) :
    ∃ places, P places w.state log := by
  have hsystem : ∀ (places : Nat → Option Place) (i : Nat) command s log p,
      places i = none → P places s log → s.Sound deps.sha256 v →
      services deps admitted command s = some p →
      ∃ g, P (Function.update places i (some g)) s log ∧
        Obeys (serviceDiscipline deps.sha256 v cond) (fun _ _ _ => True) (fun _ _ => True) p g s :=
    fun places i _ s log _ hi hP hs hp =>
      ⟨.first, hbegin places i s log hi hP, obeys_services hfresh hadmitted hs hp⟩
  have hpool : (⟨start, []⟩ : Pool Device DeviceEvent Failure).Obeys
      (serviceDiscipline deps.sha256 v cond) P (fun _ => none) [] :=
    ⟨hstart, hinitial, by simp, by simp⟩
  obtain ⟨places, hw⟩ :=
    Pool.Obeys.trace (serviceDiscipline_lawful cond) hstep hsystem hpool h hcond
  exact ⟨places, hw.holds⟩

end Calls

end VaultServices

end PassVault
