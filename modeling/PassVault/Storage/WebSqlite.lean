import PassVault.Lib.Machine
import PassVault.Storage.MetadataStore

/-!
# SQLite in the web view

`openWebSqlite` of `apps/mobile/src/platform/sqlite.ts`: a database in memory, which is exported and
written out whole, and beside it the connection of the desktop (`sqliteDriver.ts`). What a database
holds is arbitrary; closing a connection rolls its transaction back, and a new one starts with
foreign keys off.
-/

namespace PassVault

open Machine

/-- What a connection has open. -/
structure Connection (δ : Type) where
  db : δ
  /-- What the open transaction goes back to. -/
  snapshot : Option δ

/-- What is asked of a connection. A statement is told whether foreign keys are enforced, and
changes nothing when it fails. -/
inductive SqlCall (δ : Type) where
  | run (statement : Bool → δ → Except Failure δ)
  | begin
  | commit
  | rollback

namespace SqlCall

variable {δ : Type}

def on (enforced : Bool) : SqlCall δ → Connection δ → Except Failure (Connection δ)
  | run statement, c => (statement enforced c.db).map fun db => { c with db }
  | begin, c =>
    match c.snapshot with
    | none => .ok { c with snapshot := some c.db }
    | some _ => .error (.sql "cannot start a transaction within a transaction")
  | commit, c =>
    match c.snapshot with
    | some _ => .ok { c with snapshot := none }
    | none => .error (.sql "cannot commit - no transaction is active")
  | rollback, c =>
    match c.snapshot with
    | some db => .ok ⟨db, none⟩
    | none => .error (.sql "cannot rollback - no transaction is active")

/-- Does `touched` flush at once? -/
def flushes : SqlCall δ → Bool
  | commit | rollback => true
  | _ => false

end SqlCall

/-- The connection on the phone. An image comes with its place in the chain of `writing`. -/
structure WebSqlite (δ : Type) where
  conn : Connection δ
  foreignKeys : Bool
  dirty : Bool
  timer : Bool
  /-- How many images the chain has been given, and how many writes were fulfilled. -/
  links : Nat
  fulfilled : Nat
  /-- The images that are yet to be written. -/
  writing : List (Nat × δ)
  /-- A write has failed, and with it all that come after it in the chain. -/
  rejected : Bool
  /-- What the file holds. -/
  image : Option (Nat × δ)
  /-- How many calls have changed the database. The connection does not look at it. -/
  mutations : Nat

/-- What happens to the connection. The timer fires only while it is armed, and a write ends only
when it has begun. -/
inductive WebAction (δ : Type) where
  | call (call : SqlCall δ)
  | fireTimer
  | flush
  | written
  | writeFailed

namespace WebSqlite

variable {δ : Type}

/-- `existing` is what the file holds, `new` an empty database. -/
def opened (existing : Option δ) (new : δ) : WebSqlite δ where
  conn := ⟨existing.getD new, none⟩
  foreignKeys := true
  dirty := false
  timer := false
  links := 0
  fulfilled := 0
  writing := []
  rejected := false
  image := existing.map fun db => (0, db)
  mutations := 0

/-- `export` closes the connection and opens it again. -/
def reopen (s : WebSqlite δ) : WebSqlite δ :=
  { s with conn := ⟨s.conn.snapshot.getD s.conn.db, none⟩, foreignKeys := false }

/-- `writing.then(() => files.write(bytes))`. -/
def chain (s : WebSqlite δ) : WebSqlite δ :=
  { s with
    links := s.links + 1
    writing := if s.rejected then s.writing else s.writing ++ [(s.links + 1, s.conn.db)] }

def flush (s : WebSqlite δ) : WebSqlite δ :=
  if s.dirty then ({ s with timer := false, dirty := false } : WebSqlite δ).reopen.chain
  else { s with timer := false }

def touched (flushes : Bool) (s : WebSqlite δ) : WebSqlite δ :=
  if flushes then ({ s with dirty := true } : WebSqlite δ).flush
  else { s with dirty := true, timer := true }

/-- Make a call, and what it answers. -/
def issue (call : SqlCall δ) (s : WebSqlite δ) : WebSqlite δ × Except Failure Unit :=
  match call.on s.foreignKeys s.conn with
  | .ok conn =>
    (({ s with conn, mutations := s.mutations + 1 } : WebSqlite δ).touched call.flushes, .ok ())
  | .error e => (s, .error e)

def step (s : WebSqlite δ) : WebAction δ → Option (WebSqlite δ)
  | .call call => some (s.issue call).1
  | .fireTimer => if s.timer then some s.flush else none
  | .flush => some s.flush
  | .written =>
    match s.writing with
    | image :: rest =>
      some { s with fulfilled := s.fulfilled + 1, writing := rest, image := some image }
    | [] => none
  | .writeFailed =>
    match s.writing with
    | _ :: _ => some { s with writing := [], rejected := true }
    | [] => none

/-! ## What is persisted -/

/-- The image that was exported last. -/
def latest (s : WebSqlite δ) : Option (Nat × δ) := s.writing.getLast?.or s.image

/-- What holds as long as no write has failed. -/
structure Persisting (s : WebSqlite δ) : Prop where
  accepted : s.rejected = false
  links : s.links = s.fulfilled + s.writing.length
  /-- A database that is not dirty has been exported, if anything was ever changed. -/
  exported : s.dirty = false → 0 < s.mutations → s.latest.map (·.2) = some s.conn.db
  places : s.writing.map (·.1) = List.range' (s.fulfilled + 1) s.writing.length
  image : ∀ image ∈ s.image, image.1 ≤ s.fulfilled

theorem persisting_opened (existing : Option δ) (new : δ) : (opened existing new).Persisting where
  accepted := rfl
  links := rfl
  exported _ h := absurd h (Nat.lt_irrefl 0)
  places := rfl
  image image h := by
    obtain ⟨db, -, rfl⟩ := Option.map_eq_some_iff.mp h
    exact Nat.le_refl 0

theorem persisting_flush {s : WebSqlite δ} (h : s.Persisting) : s.flush.Persisting := by
  unfold WebSqlite.flush
  split
  · rename_i hdirty
    refine ⟨h.accepted, ?_, fun _ _ => ?_, ?_, h.image⟩
    · simp [chain, reopen, h.accepted, h.links]
      omega
    · simp [chain, reopen, latest, h.accepted]
    · have hlinks := h.links
      simp [chain, reopen, h.accepted, h.places, List.range'_concat]
      omega
  · exact ⟨h.accepted, h.links, h.exported, h.places, h.image⟩

theorem persisting_issue {s : WebSqlite δ} (h : s.Persisting) (call : SqlCall δ) :
    (s.issue call).1.Persisting := by
  unfold WebSqlite.issue
  split
  · rename_i conn hcall
    have hdirty : Persisting { s with conn, mutations := s.mutations + 1, dirty := true } :=
      ⟨h.accepted, h.links, nofun, h.places, h.image⟩
    unfold WebSqlite.touched
    split
    · exact persisting_flush hdirty
    · exact ⟨h.accepted, h.links, nofun, h.places, h.image⟩
  · exact h

theorem persisting_step {s t : WebSqlite δ} (h : s.Persisting) {action : WebAction δ}
    (hfails : action ≠ .writeFailed) (hstep : s.step action = some t) : t.Persisting := by
  cases action with
  | call call =>
    cases hstep
    exact persisting_issue h call
  | fireTimer =>
    simp only [WebSqlite.step] at hstep
    split at hstep
    · cases hstep
      exact persisting_flush h
    · cases hstep
  | flush =>
    cases hstep
    exact persisting_flush h
  | written =>
    simp only [WebSqlite.step] at hstep
    split at hstep
    · rename_i image rest hwriting
      cases hstep
      have hlinks := h.links
      have hplaces := h.places
      rw [hwriting] at hlinks hplaces
      rw [List.length_cons] at hlinks hplaces
      rw [List.range'_succ, List.map_cons, List.cons.injEq] at hplaces
      refine ⟨h.accepted, ?_, fun hclean hsome => ?_, hplaces.2, fun image' himage => ?_⟩
      · show s.links = s.fulfilled + 1 + rest.length
        omega
      · have hexported := h.exported hclean hsome
        unfold latest at hexported ⊢
        rw [hwriting, List.getLast?_cons] at hexported
        cases hlast : rest.getLast? with
        | none => simpa [hlast] using hexported
        | some last => simpa [hlast] using hexported
      · cases himage
        exact Nat.le_of_eq hplaces.1
    · cases hstep
  | writeFailed => exact absurd rfl hfails

/-- Once the chain is empty, what was exported last is what the file holds. -/
theorem image_eq_latest {s : WebSqlite δ} (h : s.Persisting) (hall : s.links ≤ s.fulfilled) :
    s.image = s.latest := by
  have hlinks := h.links
  have hempty : s.writing = [] := List.length_eq_zero_iff.mp (by omega)
  unfold latest
  rw [hempty]
  rfl

/-- What is asked of the connection in a run. -/
structure Durable (start : WebSqlite δ) (actions : List (WebAction δ)) : Prop where
  /-- When a flush that came after the last change resolves, the file holds the database. -/
  flushed : ∀ before after later s t, actions = before ++ .flush :: (after ++ later) →
    play step start before = some s → play step s.flush after = some t → 0 < s.mutations →
    t.mutations = s.mutations → s.flush.links ≤ t.fulfilled →
    t.image.map (·.2) = some t.conn.db
  ordered : ∀ before action after s t, actions = before ++ action :: after →
    play step start before = some s → s.step action = some t →
    ∀ old ∈ s.image, ∃ new ∈ t.image, old.1 ≤ new.1
  retried : ∀ before after s t, actions = before ++ .writeFailed :: after →
    play step start before = some s → s.step .writeFailed = some t →
    t.dirty = true ∧ t.rejected = false

theorem mutations_flush (s : WebSqlite δ) : s.flush.mutations = s.mutations := by
  unfold flush
  split <;> rfl

theorem dirty_flush (s : WebSqlite δ) : s.flush.dirty = false := by
  unfold flush
  split
  · rfl
  · rename_i hclean
    simpa using hclean

/-- Nothing has changed, and a clean database has not been exported again. -/
structure Still (s t : WebSqlite δ) : Prop where
  mutations : s.mutations ≤ t.mutations
  clean : t.mutations = s.mutations → s.dirty = false → t.dirty = false ∧ t.links = s.links

theorem still_flush (s : WebSqlite δ) : s.Still s.flush := by
  refine ⟨Nat.le_of_eq (mutations_flush s).symm, fun _ hclean => ⟨dirty_flush s, ?_⟩⟩
  unfold flush
  rw [hclean]
  rfl

theorem still_step {s t : WebSqlite δ} {action : WebAction δ} (hstep : s.step action = some t) :
    s.Still t := by
  cases action with
  | call call =>
    cases hstep
    unfold issue
    split
    · rename_i conn hcall
      have hmore : (touched call.flushes { s with
          conn, mutations := s.mutations + 1 }).mutations = s.mutations + 1 := by
        unfold touched
        split
        · exact mutations_flush _
        · rfl
      dsimp only
      exact ⟨by omega, fun hsame => by omega⟩
    · exact ⟨Nat.le_refl _, fun _ hclean => ⟨hclean, rfl⟩⟩
  | fireTimer =>
    simp only [step] at hstep
    split at hstep
    · cases hstep
      exact still_flush s
    · cases hstep
  | flush =>
    cases hstep
    exact still_flush s
  | written | writeFailed =>
    simp only [step] at hstep
    split at hstep
    · cases hstep
      exact ⟨Nat.le_refl _, fun _ hclean => ⟨hclean, rfl⟩⟩
    · cases hstep

theorem still_play {s t : WebSqlite δ} {actions : List (WebAction δ)}
    (h : play step s actions = some t) : s.Still t := by
  refine play_keeps (P := s.Still) ?_ h ⟨Nat.le_refl _, fun _ hclean => ⟨hclean, rfl⟩⟩
  intro action _ u u' hu hstep
  have hle := hu.mutations
  have hstill := still_step hstep
  have hle' := hstill.mutations
  refine ⟨by omega, fun hsame hs => ?_⟩
  obtain ⟨hclean, hlinks⟩ := hu.clean (by omega) hs
  obtain ⟨hclean', hlinks'⟩ := hstill.clean (by omega) hclean
  exact ⟨hclean', hlinks'.trans hlinks⟩

theorem persisting_play {existing : Option δ} {new : δ} {t : WebSqlite δ}
    {actions : List (WebAction δ)} (h : play step (opened existing new) actions = some t)
    (hfails : .writeFailed ∉ actions) : t.Persisting :=
  play_keeps (fun _ hmem _ _ hs hstep => persisting_step hs (fun heq => hfails (heq ▸ hmem)) hstep) h
    (persisting_opened existing new)

theorem image_step {s t : WebSqlite δ} (h : s.Persisting) {action : WebAction δ}
    (hstep : s.step action = some t) : t.image = s.image ∨
      ∃ image, t.image = some image ∧ image.1 = s.fulfilled + 1 := by
  have hflush : s.flush.image = s.image := by
    unfold flush
    split <;> rfl
  cases action with
  | call call =>
    simp only [step, issue] at hstep
    split at hstep
    · cases hstep
      refine .inl ?_
      unfold touched
      split
      · unfold flush
        split <;> rfl
      · rfl
    · cases hstep
      exact .inl rfl
  | fireTimer =>
    simp only [step] at hstep
    split at hstep
    · cases hstep
      exact .inl hflush
    · cases hstep
  | flush =>
    cases hstep
    exact .inl hflush
  | written =>
    simp only [step] at hstep
    split at hstep
    · rename_i image rest hwriting
      cases hstep
      have hplaces := h.places
      rw [hwriting, List.length_cons, List.range'_succ, List.map_cons, List.cons.injEq] at hplaces
      exact .inr ⟨image, rfl, hplaces.1⟩
    · cases hstep
  | writeFailed =>
    simp only [step] at hstep
    split at hstep
    · cases hstep
      exact .inl rfl
    · cases hstep

/-- What a flush has waited for is in the file, images are written in the order they were exported,
and a write that failed is made good, in exactly those runs in which no write fails. -/
theorem durable_iff (existing : Option δ) (new : δ) (actions : List (WebAction δ))
    (t : WebSqlite δ) (h : play step (opened existing new) actions = some t) :
    Durable (opened existing new) actions ↔ .writeFailed ∉ actions := by
  constructor
  · intro hdurable hmem
    obtain ⟨before, after, s, s', rfl, hs, hstep, -⟩ := play_mem h hmem
    obtain ⟨-, haccepted⟩ := hdurable.retried before after s s' rfl hs hstep
    simp only [step] at hstep
    split at hstep
    · cases hstep
      cases haccepted
    · cases hstep
  · intro hfails
    refine ⟨fun before after later s u hsplit hs hu hsome hsame hlinks => ?_,
      fun before action after s u hsplit hs hstep old hold => ?_,
      fun before after s u hsplit _ _ => ?_⟩
    · have hrun : play step (opened existing new) (before ++ .flush :: after) = some u := by
        rw [play_append, hs]
        exact hu
      have hpersisting : u.Persisting := persisting_play hrun fun hmem => hfails (by
        rw [hsplit, ← List.cons_append, ← List.append_assoc]
        exact List.mem_append_left _ hmem)
      obtain ⟨hclean, hsameLinks⟩ :=
        (still_play hu).clean (hsame.trans (mutations_flush s).symm) (dirty_flush s)
      rw [image_eq_latest hpersisting (by omega)]
      exact hpersisting.exported hclean (by omega)
    · have hpersisting : s.Persisting := persisting_play hs fun hmem =>
        hfails (hsplit ▸ List.mem_append_left _ hmem)
      rcases image_step hpersisting hstep with hsame | ⟨image, hnew, hplace⟩
      · exact ⟨old, hsame ▸ hold, Nat.le_refl _⟩
      · exact ⟨image, hnew, by have := hpersisting.image old hold; omega⟩
    · exact absurd (hsplit ▸ List.mem_append_right _ List.mem_cons_self) hfails

/-- A row is stored. -/
def put (n : Nat) : WebAction Nat := .call (.run fun _ _ => .ok n)

theorem durable_iff_written : Durable (opened none 0) [put 1, .flush, .written] :=
  (durable_iff none 0 [put 1, .flush, .written] _ rfl).mpr (by simp [put])

/-- A write fails, and nothing is written any more, although nothing counts as dirty. -/
theorem not_durable_failed : ¬ Durable (opened none 0) [put 1, .flush, .writeFailed, put 2, .flush] ∧
    ∃ t, play step (opened none 0) [put 1, .flush, .writeFailed, put 2, .flush] = some t ∧
      t.dirty = false ∧ t.timer = false ∧ t.writing = [] ∧ t.image = none := by
  refine ⟨fun hdurable => ?_, _, rfl, rfl, rfl, rfl, rfl⟩
  obtain ⟨hdirty, -⟩ := hdurable.retried [put 1, .flush] [put 2, .flush] _ _ rfl rfl rfl
  cases hdirty

end WebSqlite

/-! ## Foreign keys -/

/-- The statements that reference a vault. -/
inductive StoreStatement where
  | saveRevision (revision : Revision)
  | appendHeadEvent (event : HeadRevisionEvent)
  | saveConflict (conflict : Conflict)
  | recordPeerHead (row : PeerHeadRow)

namespace StoreStatement

def vaultId : StoreStatement → VaultId
  | saveRevision revision => revision.vaultId
  | appendHeadEvent event => event.vaultId
  | saveConflict conflict => conflict.vaultId
  | recordPeerHead row => row.vaultId

/-- The row is there already, so that no row is inserted. -/
def known (t : Tables) : StoreStatement → Bool
  | saveRevision revision => t.revisions.has revision.id
  | appendHeadEvent _ => false
  | saveConflict conflict => t.conflicts.has conflict.id
  | recordPeerHead row => t.peerHeads.has row.pair

/-- The statement on a desktop. -/
def onDesktop : StoreStatement → Tables → Except Failure Tables
  | saveRevision revision => Tables.saveRevision revision
  | appendHeadEvent event => Tables.appendHeadEvent event
  | saveConflict conflict => Tables.saveConflict conflict
  | recordPeerHead row => Tables.recordPeerHead row

theorem resolved_id (conflict row : Conflict) :
    ({ row with
      status := conflict.status, decision := conflict.decision
      resolvedAt := conflict.resolvedAt } : Conflict).id = row.id :=
  rfl

theorem seen_pair (row old : PeerHeadRow) :
    ({ old with headRevisionId := row.headRevisionId, seenAt := row.seenAt } : PeerHeadRow).pair =
      old.pair :=
  rfl

/-- The statement where nothing checks what it references. -/
def unchecked : StoreStatement → Tables → Except Failure Tables
  | saveRevision revision, t => do
    t.checkParents revision.id revision.parentIds
    return ({ t with revisions := t.revisions.insert revision.row } : Tables).insertParents
      revision.id revision.parentIds
  | appendHeadEvent event, t => .ok { t with headEvents := t.headEvents ++ [event] }
  | saveConflict conflict, t => .ok { t with
      conflicts := t.conflicts.upsert conflict
        (fun row => { row with
          status := conflict.status, decision := conflict.decision
          resolvedAt := conflict.resolvedAt })
        (resolved_id conflict) }
  | recordPeerHead row, t => .ok { t with
      peerHeads := t.peerHeads.upsert row
        (fun old => { old with headRevisionId := row.headRevisionId, seenAt := row.seenAt })
        (seen_pair row) }

def on (statement : StoreStatement) (enforced : Bool) : Tables → Except Failure Tables :=
  if enforced then statement.onDesktop else statement.unchecked

/-- A new row for a vault that has no row is refused. -/
theorem onDesktop_error {statement : StoreStatement} {t : Tables}
    (hvault : t.vaults.has statement.vaultId = false) (hnew : statement.known t = false) :
    ∃ e, statement.onDesktop t = .error e := by
  cases hresult : statement.onDesktop t with
  | error e => exact ⟨e, rfl⟩
  | ok tables =>
    cases statement with
    | saveRevision revision =>
      obtain ⟨-, hstored, -⟩ := Tables.saveRevision_ok hresult
      simp only [known, vaultId] at hnew hvault
      simp [hnew, hvault] at hstored
    | appendHeadEvent event =>
      simp only [vaultId] at hvault
      simp [onDesktop, Tables.appendHeadEvent, hvault] at hresult
    | saveConflict conflict =>
      simp only [known, vaultId] at hnew hvault
      simp [onDesktop, Tables.saveConflict, hvault, hnew] at hresult
    | recordPeerHead row =>
      simp only [known, vaultId] at hnew hvault
      simp [onDesktop, Tables.recordPeerHead, hvault, hnew] at hresult

end StoreStatement

namespace WebSqlite

variable {δ : Type}

/-- The action finds something to export. -/
def exports (s : WebSqlite δ) : WebAction δ → Bool
  | .flush | .fireTimer => s.dirty
  | .call .commit | .call .rollback => s.conn.snapshot.isSome
  | _ => false

/-- The database was exported in the course of a run. -/
def Exported (start : WebSqlite δ) (actions : List (WebAction δ)) : Prop :=
  ∃ before action after s, actions = before ++ action :: after ∧
    play step start before = some s ∧ s.exports action = true

theorem not_exported_nil (s : WebSqlite δ) : ¬ Exported s [] := by
  rintro ⟨before, action, after, u, hsplit, -⟩
  simp at hsplit

theorem exported_cons {s t : WebSqlite δ} {action : WebAction δ} {rest : List (WebAction δ)}
    (hstep : s.step action = some t) :
    Exported s (action :: rest) ↔ s.exports action = true ∨ Exported t rest := by
  constructor
  · rintro ⟨before, action', after, u, hsplit, hu, hexports⟩
    cases before with
    | nil =>
      cases hsplit
      cases hu
      exact .inl hexports
    | cons first before =>
      cases hsplit
      rw [play, hstep, Option.bind_some] at hu
      exact .inr ⟨before, action', after, u, rfl, hu, hexports⟩
  · rintro (hexports | ⟨before, action', after, u, rfl, hu, hexports⟩)
    · exact ⟨[], action, rest, s, rfl, rfl, hexports⟩
    · exact ⟨action :: before, action', after, u, rfl, by rw [play, hstep, Option.bind_some, hu],
        hexports⟩

theorem foreignKeys_flush (s : WebSqlite δ) :
    s.flush.foreignKeys = (s.foreignKeys && !s.dirty) := by
  unfold flush
  split
  · rename_i hdirty
    simp [chain, reopen, hdirty]
  · rename_i hclean
    simp [hclean]

theorem foreignKeys_step {s t : WebSqlite δ} {action : WebAction δ} (hstep : s.step action = some t) :
    t.foreignKeys = (s.foreignKeys && !s.exports action) := by
  cases action with
  | call call =>
    cases hstep
    unfold issue
    split
    · rename_i conn hcall
      unfold touched
      cases call with
      | run | begin => simp [SqlCall.flushes, exports]
      | commit | rollback =>
        cases hopen : s.conn.snapshot with
        | none => simp [SqlCall.on, hopen] at hcall
        | some db => simp [SqlCall.flushes, exports, hopen, foreignKeys_flush]
    · rename_i e hcall
      cases call with
      | run | begin => simp [exports]
      | commit | rollback =>
        cases hopen : s.conn.snapshot with
        | none => simp [exports, hopen]
        | some db => simp [SqlCall.on, hopen] at hcall
  | fireTimer =>
    simp only [step] at hstep
    split at hstep
    · cases hstep
      exact foreignKeys_flush s
    · cases hstep
  | flush =>
    cases hstep
    exact foreignKeys_flush s
  | written | writeFailed =>
    simp only [step] at hstep
    split at hstep
    · cases hstep
      simp [exports]
    · cases hstep

/-- Foreign keys are enforced until the database is exported, and not after. -/
theorem foreignKeys_play {s t : WebSqlite δ} {actions : List (WebAction δ)}
    (h : play step s actions = some t) :
    t.foreignKeys = true ↔ s.foreignKeys = true ∧ ¬ Exported s actions := by
  induction actions generalizing s with
  | nil =>
    cases h
    simp [not_exported_nil]
  | cons action rest ih =>
    obtain ⟨u, hu, h⟩ := Option.bind_eq_some_iff.mp h
    rw [ih h, exported_cons hu, foreignKeys_step hu]
    simp [and_assoc]

/-- The connection of a desktop, of which only calls are made. -/
def desktop (c : Connection δ) : WebAction δ → Connection δ
  | .call call => (call.on true c).toOption.getD c
  | _ => c

/-- Without an export, the phone does what a desktop does. -/
theorem conn_step {s t : WebSqlite δ} {action : WebAction δ} (hstep : s.step action = some t)
    (hkeys : s.foreignKeys = true) (hexports : s.exports action = false) :
    t.conn = desktop s.conn action := by
  have hflush : s.dirty = false → s.flush.conn = s.conn := by
    intro hclean
    unfold flush
    rw [hclean]
    rfl
  cases action with
  | call call =>
    cases hstep
    cases hcall : call.on true s.conn with
    | error e => simp [issue, desktop, hkeys, hcall, Except.toOption]
    | ok conn =>
      cases call with
      | run | begin => simp [issue, desktop, hkeys, hcall, Except.toOption, touched, SqlCall.flushes]
      | commit | rollback =>
        cases hopen : s.conn.snapshot with
        | none => simp [SqlCall.on, hopen] at hcall
        | some db => simp [exports, hopen] at hexports
  | fireTimer =>
    simp only [step] at hstep
    split at hstep
    · cases hstep
      exact hflush hexports
    · cases hstep
  | flush =>
    cases hstep
    exact hflush hexports
  | written | writeFailed =>
    simp only [step] at hstep
    split at hstep
    · cases hstep
      rfl
    · cases hstep

theorem conn_play {s t : WebSqlite δ} {actions : List (WebAction δ)}
    (h : play step s actions = some t) (hkeys : s.foreignKeys = true)
    (hexported : ¬ Exported s actions) : t.conn = actions.foldl desktop s.conn := by
  induction actions generalizing s with
  | nil =>
    cases h
    rfl
  | cons action rest ih =>
    obtain ⟨u, hu, h⟩ := Option.bind_eq_some_iff.mp h
    rw [exported_cons hu] at hexported
    obtain ⟨hnow, hlater⟩ := not_or.mp hexported
    have hnow : s.exports action = false := by simpa using hnow
    have hkeys' : u.foreignKeys = true := by simp [foreignKeys_step hu, hkeys, hnow]
    rw [List.foldl_cons, ← conn_step hu hkeys hnow]
    exact ih h hkeys' hlater

/-- Foreign keys are enforced at every call, which answers what it answers on a desktop. -/
structure Enforced (start : WebSqlite Tables) (actions : List (WebAction Tables)) : Prop where
  keys : ∀ before call after s, actions = before ++ .call call :: after →
    play step start before = some s → s.foreignKeys = true
  answers : ∀ before call after s, actions = before ++ .call call :: after →
    play step start before = some s →
    (s.issue call).2 = (call.on true (before.foldl desktop start.conn)).map fun _ => ()
  refused : ∀ before statement after s,
    actions = before ++ .call (.run (StoreStatement.on statement)) :: after →
    play step start before = some s → s.conn.db.vaults.has statement.vaultId = false →
    statement.known s.conn.db = false →
    ∃ e, (s.issue (.run (StoreStatement.on statement))).2 = .error e

/-- Foreign keys stay enforced in exactly those runs in which no call follows an export. -/
theorem enforced_iff (existing : Option Tables) (new : Tables) (actions : List (WebAction Tables))
    (t : WebSqlite Tables) (h : play step (opened existing new) actions = some t) :
    Enforced (opened existing new) actions ↔ ∀ before call after,
      actions = before ++ .call call :: after → ¬ Exported (opened existing new) before := by
  constructor
  · intro henforced before call after hsplit
    obtain ⟨s, hs, -⟩ := play_split (hsplit ▸ h)
    exact ((foreignKeys_play hs).mp (henforced.keys before call after s hsplit hs)).2
  · intro hnone
    have hkeys : ∀ before call after s, actions = before ++ .call call :: after →
        play step (opened existing new) before = some s → s.foreignKeys = true :=
      fun before call after s hsplit hs =>
        (foreignKeys_play hs).mpr ⟨rfl, hnone before call after hsplit⟩
    refine ⟨hkeys, fun before call after s hsplit hs => ?_,
      fun before statement after s hsplit hs hvault hnew => ?_⟩
    · unfold issue
      rw [hkeys before call after s hsplit hs,
        conn_play hs rfl (hnone before call after hsplit)]
      split <;> rename_i hcall <;> rw [hcall] <;> rfl
    · obtain ⟨e, he⟩ := StoreStatement.onDesktop_error hvault hnew
      unfold issue
      rw [hkeys before _ after s hsplit hs, SqlCall.on, StoreStatement.on, if_pos rfl, he]
      exact ⟨e, rfl⟩

/-- A revision that a peer has sent, of a vault that is not here. -/
def orphan : StoreStatement :=
  .saveRevision ⟨⟨"r"⟩, ⟨"elsewhere"⟩, ⟨"00"⟩, 1, 0, some ⟨"phone"⟩, [], .received, none⟩

/-- The schema is created. -/
def create : WebAction Tables := .call (.run fun _ _ => .ok Tables.empty)

theorem enforced_iff_unexported :
    Enforced (opened none Tables.empty) [create, .call (.run orphan.on)] := by
  refine (enforced_iff none Tables.empty [create, .call (.run orphan.on)] _ rfl).mpr ?_
  intro before call after hsplit hexported
  match before with
  | [] => exact not_exported_nil _ hexported
  | [first] =>
    cases hsplit
    rcases (exported_cons rfl).mp hexported with hnow | hlater
    · cases hnow
    · exact not_exported_nil _ hlater
  | first :: second :: rest =>
    have hlength := congrArg List.length hsplit
    simp at hlength

/-- The timer fires, and then a revision of an unknown vault is stored. -/
theorem not_enforced_exported :
    ¬ Enforced (opened none Tables.empty) [create, .fireTimer, .call (.run orphan.on)] ∧
      ∃ t, play step (opened none Tables.empty) [create, .fireTimer, .call (.run orphan.on)] =
        some t ∧ t.conn.db.hasRevision ⟨"r"⟩ = true ∧
        t.conn.db.getVault ⟨"elsewhere"⟩ = none := by
  refine ⟨fun henforced => ?_, _, rfl, by decide +kernel, rfl⟩
  have hkeys := henforced.keys [create, .fireTimer] _ [] _ rfl rfl
  cases hkeys

end WebSqlite

end PassVault
