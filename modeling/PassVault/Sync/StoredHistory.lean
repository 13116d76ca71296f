import PassVault.Lib.Ancestry
import PassVault.Sync.Uninterrupted

/-!
# The stored history

Engine operations run one after the other, each to completion, with arbitrary arguments and ids
that are new. No insertion checks for cycles; that the stored parent relation stays acyclic, and
that a revision keeps the parents it was stored with, follows because edges are only ever added
below a revision that was not stored before.
-/

namespace PassVault

open Async Relation

/-- A call of the engine, with the ids and the time it takes from its generators. -/
inductive Operation where
  | importVault (vaultId : VaultId) (stamp : Stamp) (name : String) (bytes : Bytes)
      (kdbxPath : Option FilePath)
  | recordLocalChange (stamp : Stamp) (vaultId : VaultId) (bytes : Bytes)
  | ingestReceivedRevision (now : Nat) (input : IngestInput)
  | merge (stamp : Stamp) (vaultId : VaultId) (baseRevisionId : RevisionId)
      (incomingRevisionIds : List RevisionId) (message : Option String)
  | promote (now : Nat) (vaultId : VaultId) (revisionId : RevisionId)
  | fastForward (now : Nat) (vaultId : VaultId) (revisionId : RevisionId)
  | adoptVault (now : Nat) (vaultId : VaultId) (name : String)
  | bindVaultToFile (vaultId : VaultId) (kdbxPath : FilePath)

namespace Operation

/-- The call, its result dropped. -/
def program (deps : EngineDeps) : Operation → Async Store (EngineEvent Unit) Failure Unit
  | importVault vaultId stamp name bytes kdbxPath => do
    let _ ← SyncEngine.importVault deps vaultId stamp name bytes kdbxPath
  | recordLocalChange stamp vaultId bytes => do
    let _ ← SyncEngine.recordLocalChange deps stamp vaultId bytes ()
  | ingestReceivedRevision now input => do
    let _ ← SyncEngine.ingestReceivedRevision deps now input
  | merge stamp vaultId baseRevisionId incomingRevisionIds message => do
    let _ ← SyncEngine.merge deps stamp vaultId baseRevisionId incomingRevisionIds message
  | promote now vaultId revisionId => do
    let _ ← SyncEngine.promote now vaultId revisionId
  | fastForward now vaultId revisionId => do
    let _ ← SyncEngine.fastForward now vaultId revisionId ()
  | adoptVault now vaultId name => do
    let _ ← SyncEngine.adoptVault now vaultId name
  | bindVaultToFile vaultId kdbxPath => do
    let _ ← SyncEngine.bindVaultToFile vaultId kdbxPath

/-- The store after a call, whether it returned or threw. -/
def run (deps : EngineDeps) (operation : Operation) (s : Store) : Option Store :=
  ((operation.program deps).run s).map (·.2.1)

/-- The revision id the call generates, if it generates one. -/
def generated : Operation → Option RevisionId
  | importVault _ stamp _ _ _ => some stamp.revisionId
  | recordLocalChange stamp _ _ => some stamp.revisionId
  | merge stamp _ _ _ _ => some stamp.revisionId
  | _ => none

/-- The id the call generates is not stored. -/
def Fresh (operation : Operation) (s : Store) : Prop :=
  ∀ id, operation.generated = some id → s.tables.hasRevision id = false

end Operation

/-- Runs of allowed calls, each to completion and with a revision id that is new. -/
inductive Runs (deps : EngineDeps) (allowed : Operation → Store → Prop) : Store → Store → Prop where
  | refl (s : Store) : Runs deps allowed s s
  | step {s t u : Store} {operation : Operation} (hruns : Runs deps allowed s t)
      (hallowed : allowed operation t) (hfresh : operation.Fresh t)
      (hrun : operation.run deps t = some u) : Runs deps allowed s u

/-- Every call is allowed. -/
def anyCall (_ : Operation) (_ : Store) : Prop := True

/-- The run of a list of calls, if their ids are new and each completes. -/
def runAll (deps : EngineDeps) : List Operation → Store → Option Store
  | [], s => some s
  | operation :: rest, s =>
    if operation.generated.all fun id => !s.tables.hasRevision id then
      (operation.run deps s).bind (runAll deps rest)
    else none

namespace SyncEngine

/-- Every revision stored in `s` has no other parents in `t`. -/
def Settled (s t : Store) : Prop :=
  ∀ x p, s.tables.hasRevision x = true → t.tables.StoredParent x p → s.tables.StoredParent x p

theorem Settled.of_same {s t : Store}
    (h : t.tables.revisionParents = s.tables.revisionParents) : Settled s t := by
  intro x p _ hp
  simpa [Tables.StoredParent, h] using hp

theorem Settled.trans {s t u : Store} (hst : s.Grows t) (h : Settled s t) (h' : Settled t u) :
    Settled s u := fun x p hx hp => h x p hx (h' x p (hst.tables.hasRevision hx) hp)

/-- Adding edges below a revision that is not stored closes no cycle: nothing leads to it. -/
theorem acyclic_insert {t : Tables} {tables : Tables} {id : RevisionId}
    {parentIds : List RevisionId} (hacyclic : Ancestry.Acyclic t.StoredParent)
    (hclosed : ∀ x p, t.StoredParent x p → t.hasRevision x = true ∧ t.hasRevision p = true)
    (hnew : t.hasRevision id = false) (hparents : ∀ p ∈ parentIds, t.hasRevision p = true)
    (hedges : ∀ x p, tables.StoredParent x p ↔
      t.StoredParent x p ∨ (x = id ∧ p ∈ parentIds)) :
    Ancestry.Acyclic tables.StoredParent := by
  have hstep : ∀ x p, t.hasRevision x = true → tables.StoredParent x p →
      t.StoredParent x p ∧ t.hasRevision p = true := by
    intro x p hx hp
    rcases (hedges x p).mp hp with hp | ⟨rfl, -⟩
    · exact ⟨hp, (hclosed x p hp).2⟩
    · rw [hnew] at hx
      cases hx
  have hpath : ∀ x y, t.hasRevision x = true → TransGen tables.StoredParent x y →
      TransGen t.StoredParent x y ∧ t.hasRevision y = true := by
    intro x y hx hxy
    induction hxy with
    | single hp => exact ⟨.single (hstep _ _ hx hp).1, (hstep _ _ hx hp).2⟩
    | tail _ hp ih => exact ⟨ih.1.tail (hstep _ _ ih.2 hp).1, (hstep _ _ ih.2 hp).2⟩
  intro x hxx
  obtain ⟨p, hp, hpx⟩ := TransGen.head'_iff.mp hxx
  have hpstored : t.hasRevision p = true := by
    rcases (hedges x p).mp hp with hp | ⟨-, hp⟩
    · exact (hclosed x p hp).2
    · exact hparents p hp
  -- From the parent on, the cycle runs through stored revisions only.
  have hxstored : t.hasRevision x = true := by
    rcases reflTransGen_iff_eq_or_transGen.mp hpx with rfl | hpx
    · exact hpstored
    · exact (hpath p x hpstored hpx).2
  exact hacyclic x (hpath x x hxstored hxx).1

variable (deps : EngineDeps)

/-- Every parent of a stored revision belongs to the vault of the revision. -/
def Isolated (t : Tables) : Prop :=
  ∀ x p, t.StoredParent x p → ∀ vaultId, t.OfVault vaultId x → t.OfVault vaultId p

/-- The stored ones among `ids` belong to the vault. -/
def InVault (t : Tables) (vaultId : VaultId) (ids : List RevisionId) : Prop :=
  ∀ id ∈ ids, ∀ row, t.revisions.find id = some row → row.vaultId = vaultId

/-- Saving a revision whose parents are in its vault keeps the vaults apart. -/
theorem isolated_insert {t tables : Tables} {revision : Revision} (hisolated : Isolated t)
    (hclosed : ∀ x p, t.StoredParent x p → t.hasRevision x = true ∧ t.hasRevision p = true)
    (hnew : t.hasRevision revision.id = false)
    (hparents : InVault t revision.vaultId revision.parentIds)
    (hsave : Tables.saveRevision revision t = .ok tables) : Isolated tables := by
  have hgrows := Tables.grows_saveRevision hsave
  have hrow := Store.find_saveRevision hsave hnew
  have hstored := (Tables.saveRevision_ok hsave).1
  rintro x p hp vaultId ⟨row, hx, rfl⟩
  rcases (Tables.storedParent_saveRevision hsave).mp hp with hold | ⟨rfl, hmem⟩
  · obtain ⟨row', hx'⟩ := Table.has_iff.mp (hclosed x p hold).1
    rw [hgrows.revisions x row' hx'] at hx
    cases hx
    exact (hisolated x p hold _ ⟨_, hx', rfl⟩).mono hgrows
  · rw [hrow] at hx
    cases hx
    obtain ⟨row', hp'⟩ := Table.has_iff.mp (hstored p hmem)
    exact ⟨row', hgrows.revisions p row' hp', hparents p hmem row' hp'⟩

/-- Operations that nothing interrupts keep the history acyclic and settled, and save local
revisions under new ids. When they are only asked for parents in the vault, they keep the vaults
apart too: `isolate` says that they are. -/
def history (isolate : Prop) : Contract Store (EngineEvent Unit) where
  inv s := s.WellFormed deps.sha256 ∧ Ancestry.Acyclic s.tables.StoredParent ∧
    (isolate → Isolated s.tables)
  rely s t := s = t
  guar s _ t := s.Grows t ∧ Settled s t
  given s t := s.Grows t ∧ t.WellFormed deps.sha256
  cond _ _ := True
  prop := FreshIds
  prompt _ := False

theorem history_storeContract (isolate : Prop) : StoreContract (history deps isolate) where
  idle _ _ := ⟨.refl _, .of_same rfl⟩
  quiet := by
    intro f hf s hinv hgiven
    have htables : (changeStore f [] s).1.tables = s.tables := by cases hf <;> rfl
    exact ⟨⟨hgiven.1, .of_same (by rw [htables])⟩, hgiven.2, by rw [htables]; exact hinv.2⟩

theorem SameRevisions.inVault {s t : Store} (h : SameRevisions s t) {vaultId : VaultId}
    {ids : List RevisionId} (hs : InVault s.tables vaultId ids) : InVault t.tables vaultId ids := by
  rw [InVault, h]
  exact hs

/-- Revisions under new ids, with parents in their vault when `isolate` asks for it. -/
def historyAdmission (isolate : Prop) : Admission where
  vault _ := True
  revision revision s := s.tables.hasRevision revision.id = false ∧
    (isolate → InVault s.tables revision.vaultId revision.parentIds)
  blob _ := True

/-- A new revision extends the history and changes nothing of it. -/
theorem history_saveRevision {isolate : Prop} {s : Store} {revision : Revision} {tables : Tables}
    {events : List (EngineEvent Unit)} (hinv : (history deps isolate).inv s)
    (hrevision : (historyAdmission isolate).revision revision s)
    (hsave : Tables.saveRevision revision s.tables = .ok tables)
    (hgiven : (history deps isolate).given s (s.setTables tables)) :
    (history deps isolate).guar s events (s.setTables tables) ∧
      (history deps isolate).inv (s.setTables tables) := by
  obtain ⟨hnew, hparents⟩ := hrevision
  have hstored := (Tables.saveRevision_ok hsave).1
  have hedges := fun x p => Tables.storedParent_saveRevision (x := x) (p := p) hsave
  refine ⟨⟨hgiven.1, fun x p hx hp => ?_⟩, hgiven.2,
    acyclic_insert hinv.2.1 hinv.1.closed hnew hstored hedges, fun hisolate => ?_⟩
  · rcases (hedges x p).mp hp with hp | ⟨rfl, -⟩
    · exact hp
    · rw [hnew] at hx
      cases hx
  · exact isolated_insert (hinv.2.2 hisolate) hinv.1.closed hnew (hparents hisolate) hsave

theorem history_uninterrupted (isolate : Prop) :
    Uninterrupted deps (history deps isolate) (historyAdmission isolate) where
  toStoreContract := history_storeContract deps isolate
  alone _ _ := Iff.rfl
  every _ _ := trivial
  wellFormed _ h := h.1
  given _ _ hgrows hwf := ⟨hgrows, hwf⟩
  fresh _ _ h := h
  eager _ h := h
  grows _ _ h := h.1
  same _ _ _ hst h := ⟨hst.not_stored h.1, fun hisolate => hst.inVault (h.2 hisolate)⟩
  stored _ _ _ _ := trivial
  prop _ _ h revision hsaved _ := (h revision hsaved).1
  report s _ := ⟨.refl s, .of_same rfl⟩
  saveVault s vault _ hinv _ hgiven := ⟨⟨hgiven.1, .of_same rfl⟩, hgiven.2, hinv.2⟩
  appendHeadEvent s headEvent tables hinv hok hgiven := by
    rw [Tables.appendHeadEvent] at hok
    split at hok <;> cases hok
    exact ⟨⟨hgiven.1, .of_same rfl⟩, hgiven.2, hinv.2⟩
  saveRevision _ _ _ _ := history_saveRevision deps
  putBlob _ _ hinv _ hgiven := ⟨⟨hgiven.1, .of_same rfl⟩, hgiven.2, hinv.2⟩

end SyncEngine

namespace Operation

open SyncEngine

variable {deps : EngineDeps} {isolate : Prop}

/-- The revisions the call names as parents belong to the vault it names. -/
def StaysInVault (operation : Operation) (s : Store) : Prop :=
  match operation with
  | ingestReceivedRevision _ input => InVault s.tables input.vaultId input.declaredParentIds
  | merge _ vaultId baseRevisionId incomingRevisionIds _ =>
    InVault s.tables vaultId (baseRevisionId :: incomingRevisionIds)
  | _ => True

theorem program_growth (operation : Operation) : KeepsGrowth deps (operation.program deps) := by
  intro s hinv
  cases operation with
  | importVault vaultId stamp name bytes kdbxPath =>
    exact Safe.bind ((importVault_growth _ _ _ _ _ s hinv).mono (fun _ _ h => h) fun _ _ h => h)
  | recordLocalChange stamp vaultId bytes =>
    exact Safe.bind (recordLocalChange_growth _ _ _ _ s hinv)
  | ingestReceivedRevision now input =>
    exact Safe.bind (ingestReceivedRevision_growth _ _ s hinv)
  | merge stamp vaultId baseRevisionId incomingRevisionIds message =>
    exact Safe.bind (merge_growth _ _ _ _ _ s hinv)
  | promote now vaultId revisionId => exact Safe.bind (promote_growth _ _ _ s hinv)
  | fastForward now vaultId revisionId => exact Safe.bind (fastForward_growth _ _ _ _ s hinv)
  | adoptVault now vaultId name => exact Safe.bind (adoptVault_growth _ _ _ s hinv)
  | bindVaultToFile vaultId kdbxPath => exact Safe.bind (bindVaultToFile_growth _ _ s hinv)

theorem program_history (operation : Operation) {s : Store}
    (hinv : (history deps isolate).inv s) (hfresh : operation.Fresh s)
    (hstays : isolate → operation.StaysInVault s) :
    KeepsAlone (history deps isolate) (operation.program deps) s := by
  have hc := history_uninterrupted deps isolate
  cases operation with
  | importVault vaultId stamp name bytes kdbxPath =>
    have hroot : isolate → InVault s.tables vaultId [] := fun _ => by simp [InVault]
    exact Safe.bind (importVault_alone hc hinv _ _ _ _ _ trivial trivial ⟨hfresh _ rfl, hroot⟩)
  | recordLocalChange stamp vaultId bytes =>
    refine Safe.bind (recordLocalChange_alone hc hinv _ _ _ fun vault hget _ => ⟨trivial, ?_⟩)
    refine ⟨hfresh _ rfl, fun _ head hhead row hrow => ?_⟩
    obtain ⟨row', hrow', hvault⟩ := hinv.1.heads _ _ hget head (Option.mem_toList.mp hhead)
    rw [hrow] at hrow'
    cases hrow'
    exact hvault
  | ingestReceivedRevision now input =>
    exact Safe.bind (ingestReceivedRevision_alone hc hinv _ _ fun hnew _ _ =>
      ⟨trivial, hnew, hstays⟩)
  | merge stamp vaultId baseRevisionId incomingRevisionIds message =>
    exact Safe.bind (merge_alone hc hinv _ _ _ _ _ fun _ _ => ⟨trivial, hfresh _ rfl, hstays⟩)
  | promote now vaultId revisionId => exact Safe.bind (promote_alone hc hinv _ _ _)
  | fastForward now vaultId revisionId => exact Safe.bind (fastForward_alone hc hinv _ _ _)
  | adoptVault now vaultId name =>
    exact Safe.bind (adoptVault_alone hc hinv _ _ _ fun _ => trivial)
  | bindVaultToFile vaultId kdbxPath => exact Safe.bind (bindVaultToFile_alone hc hinv _ _)

/-- One call, run to its end. -/
theorem run_alone {c : Contract Store (EngineEvent Unit)} {a : Admission}
    (hc : Uninterrupted deps c a) (operation : Operation) {s t : Store} (hinv : c.inv s)
    (hkeeps : KeepsAlone c (operation.program deps) s) (hrun : operation.run deps s = some t) :
    c.inv t ∧ c.Steps s t := by
  obtain ⟨⟨result, t', trace⟩, hprogram, ht⟩ := Option.map_eq_some_iff.mp hrun
  obtain rfl : t' = t := ht
  have hrely : ∀ u v : Store, c.rely u v → (growth deps).rely u v :=
    fun u v huv => (hc.alone u v).mp huv ▸ Store.Grows.refl u
  have hgiven : ∀ (u : Store) (events : List (EngineEvent Unit)) (v : Store),
      (growth deps).guar u events v → (growth deps).inv v → c.given u v :=
    fun u _ v hgrows hinvv => hc.given u v hgrows hinvv
  have hsafe := Safe.layer hrely hc.wellFormed (fun u e _ h => hc.fresh u e h)
    (fun _ _ => trivial) hgiven (operation.program_growth s (hc.wellFormed s hinv)) hkeeps
  obtain ⟨-, hsteps, hinvt, -⟩ := Safe.run (c := { c with given := fun _ _ => True })
    (fun u => (hc.alone u u).mpr rfl) (fun _ _ => trivial) hsafe hinv hprogram
    fun x _ => hc.every x.1 x.2
  exact ⟨hinvt, hsteps⟩

/-- One call, on a store with an acyclic history. -/
theorem run_history (operation : Operation) {s t : Store} (hinv : (history deps isolate).inv s)
    (hfresh : operation.Fresh s) (hstays : isolate → operation.StaysInVault s)
    (hrun : operation.run deps s = some t) :
    (history deps isolate).inv t ∧ s.Grows t ∧ Settled s t := by
  obtain ⟨hinvt, hsteps⟩ := run_alone (history_uninterrupted deps isolate) operation hinv
    (program_history operation hinv hfresh hstays) hrun
  refine ⟨hinvt, ?_⟩
  clear hinvt hrun
  induction hsteps with
  | refl => exact ⟨.refl _, .of_same rfl⟩
  | tail _ hstep ih =>
    obtain ⟨_, hgrows, hsettled⟩ := hstep
    exact ⟨ih.1.trans hgrows, .trans ih.1 ih.2 hsettled⟩

end Operation

/-! ## A run -/

/-- A stand-in for the platform: the bytes themselves as the digest, and no merging. -/
def plainDeps : EngineDeps where
  sha256 bytes := ⟨String.ofList (bytes.map fun b => Char.ofNat b.toNat)⟩
  merge _ local' _ := .mergeSucceeded (local'.2 ++ [0])
  deviceId := ⟨"laptop"⟩

/-- Two vaults, and an edit in the first. -/
def twoVaults : List Operation :=
  [.importVault ⟨"home"⟩ ⟨⟨"h1"⟩, 1⟩ "home.kdbx" [1] none,
    .importVault ⟨"work"⟩ ⟨⟨"w1"⟩, 2⟩ "work.kdbx" [2] none,
    .recordLocalChange ⟨⟨"h2"⟩, 3⟩ ⟨"home"⟩ [1, 1]]

/-- The store after a list of calls. -/
def storeAfter (operations : List Operation) : Store :=
  (runAll plainDeps operations .empty).getD .empty

namespace Runs

variable {deps : EngineDeps}

variable {allowed : Operation → Store → Prop} {isolate : Prop}

theorem trans {s t u : Store} (h : Runs deps allowed s t) (h' : Runs deps allowed t u) :
    Runs deps allowed s u := by
  induction h' with
  | refl => exact h
  | step _ hallowed hfresh hrun ih => exact .step ih hallowed hfresh hrun

theorem of_runAll (operations : List Operation) {s t : Store}
    (hallowed : ∀ operation ∈ operations, ∀ s, allowed operation s)
    (h : runAll deps operations s = some t) : Runs deps allowed s t := by
  induction operations generalizing s with
  | nil =>
    cases h
    exact .refl _
  | cons operation rest ih =>
    rw [runAll] at h
    split at h
    · rename_i hall
      obtain ⟨u, hrun, h⟩ := Option.bind_eq_some_iff.mp h
      have hfresh : operation.Fresh s := fun id hid => by simpa [hid] using hall
      have hfirst := hallowed operation List.mem_cons_self s
      exact (Runs.step (.refl s) hfirst hfresh hrun).trans
        (ih (fun _ hmem => hallowed _ (List.mem_cons_of_mem _ hmem)) h)
    · cases h

theorem history {s t : Store} (hruns : Runs deps allowed s t)
    (hallowed : isolate → ∀ operation u, allowed operation u → operation.StaysInVault u)
    (hinv : (SyncEngine.history deps isolate).inv s) :
    (SyncEngine.history deps isolate).inv t ∧ s.Grows t ∧ SyncEngine.Settled s t := by
  induction hruns with
  | refl => exact ⟨hinv, .refl _, .of_same rfl⟩
  | step _ hcall hfresh hrun ih =>
    obtain ⟨hinvu, hgrows, hsettled⟩ := Operation.run_history _ ih.1 hfresh
      (fun h => hallowed h _ _ hcall) hrun
    exact ⟨hinvu, ih.2.1.trans hgrows, .trans ih.2.1 ih.2.2 hsettled⟩

theorem empty_history : (SyncEngine.history deps isolate).inv Store.empty := by
  have hnone : ∀ x p, ¬ Store.empty.tables.StoredParent x p := by
    simp [Store.empty, Tables.empty, Tables.StoredParent, Table.empty]
  refine ⟨.empty _, fun x hx => ?_, fun _ x p hp => absurd hp (hnone x p)⟩
  obtain ⟨p, hp, -⟩ := TransGen.head'_iff.mp hx
  exact hnone x p hp

/-- In every run the stored parent relation is acyclic and closed, what was stored at any point
keeps its row and its parents, and every head is absent or a stored revision of its vault. -/
theorem stored_history {s t : Store} (hs : Runs deps anyCall Store.empty s)
    (ht : Runs deps anyCall s t) :
    Ancestry.Acyclic t.tables.StoredParent ∧
      (∀ id revision, t.tables.getRevision id = some revision →
        ∀ p ∈ revision.parentIds, t.tables.hasRevision p = true) ∧
      (∀ id row, s.tables.revisions.find id = some row →
        t.tables.revisions.find id = some row ∧
          ∀ p, p ∈ t.tables.parentsOf id ↔ p ∈ s.tables.parentsOf id) ∧
      ∀ id vault, t.tables.getVault id = some vault → ∀ head,
        vault.headRevisionId = some head → t.tables.OfVault id head := by
  obtain ⟨hinvt, hgrows, hsettled⟩ :=
    ht.history False.elim (hs.history False.elim empty_history).1
  refine ⟨hinvt.2.1, fun id revision hget p hp => ?_, fun id row hrow => ⟨?_, fun p => ?_⟩,
    fun id vault hget head hhead => hinvt.1.heads id vault hget head hhead⟩
  · obtain ⟨row, -, rfl⟩ := Tables.getRevision_eq_some.mp hget
    exact (hinvt.1.closed id p (Tables.mem_parentsOf.mp hp)).2
  · exact hgrows.tables.revisions id row hrow
  · rw [Tables.mem_parentsOf, Tables.mem_parentsOf]
    exact ⟨hsettled id p (Table.has_iff.mpr ⟨row, hrow⟩), hgrows.tables.parents id p⟩

theorem stored_history_twoVaults :
    (storeAfter twoVaults).tables.getVault ⟨"home"⟩ =
        some ⟨⟨"home"⟩, "home.kdbx", some ⟨"h2"⟩, none, 1⟩ ∧
      Ancestry.Acyclic (storeAfter twoVaults).tables.StoredParent ∧
      (storeAfter twoVaults).tables.OfVault ⟨"home"⟩ ⟨"h2"⟩ := by
  have hs : Runs plainDeps anyCall .empty (storeAfter (twoVaults.take 1)) :=
    of_runAll (twoVaults.take 1) (fun _ _ _ => trivial) rfl
  have ht : Runs plainDeps anyCall (storeAfter (twoVaults.take 1)) (storeAfter twoVaults) :=
    of_runAll (twoVaults.drop 1) (fun _ _ _ => trivial) rfl
  have hhome : (storeAfter twoVaults).tables.getVault ⟨"home"⟩ =
      some ⟨⟨"home"⟩, "home.kdbx", some ⟨"h2"⟩, none, 1⟩ := rfl
  have h := stored_history hs ht
  exact ⟨hhome, h.1, h.2.2.2 _ _ hhome _ rfl⟩

end Runs

theorem wellFormed_storeAfter (operations : List Operation) {s : Store}
    (h : runAll plainDeps operations .empty = some s) : s.WellFormed plainDeps.sha256 := by
  have hruns : Runs plainDeps anyCall .empty s :=
    Runs.of_runAll operations (fun _ _ _ => trivial) h
  have hinv : (SyncEngine.history plainDeps False).inv s :=
    (hruns.history False.elim Runs.empty_history).1
  exact hinv.1

end PassVault
