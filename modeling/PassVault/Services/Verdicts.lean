import PassVault.Core.DagUnion
import PassVault.Services.VaultServices
import PassVault.Sync.StoredHistory

/-!
# What a verdict leads to

How a session classifies the two histories at its end, what `runSession` does about it, and the
revisions that have arrived by then. The verdict is about the peer's history as the peer has told
it.
-/

namespace PassVault

open Async Relation

/-! ## Runs of the programs -/

section Runs

variable {σ ω ε α : Type}

theorem run_query_bind [StoreState σ ε] {β : Type} (f : Tables → α) (k : α → Async σ ε Failure β)
    (s : σ) : (query f >>= k).run s = (k (f (store s).tables)).run s := by
  simp [query, Async.run]

end Runs

namespace Tables

def headOf (t : Tables) (vaultId : VaultId) : Option RevisionId :=
  (t.getVault vaultId).bind (·.headRevisionId)

/-- Our history and the one that the peer has told. -/
def union (t : Tables) (vaultId : VaultId) (graph : RevisionGraph) : RevisionGraph :=
  unionGraphs (buildGraph (summaryNodes (t.historySummary vaultId))) graph

def sessionVerdict (t : Tables) (vaultId : VaultId) (graph : RevisionGraph)
    (remoteHead : Option RevisionId) : Divergence :=
  match t.headOf vaultId, remoteHead with
  | none, none => .equal
  | none, some _ => .remoteAhead
  | some _, none => .localAhead
  | some localHead, some remoteHead =>
    classifyDivergence (t.union vaultId graph) localHead remoteHead

/-- The peer's head, where the verdict is that its history goes on from ours, and the revisions
between it and our head or the merge bases. -/
def between (t : Tables) (vaultId : VaultId) (graph : RevisionGraph) (head : RevisionId) :
    List RevisionId :=
  let behind (bases : List RevisionId) : List RevisionId :=
    head :: (ancestorsOf (t.union vaultId graph) head).filter fun r =>
      bases.all fun base => r ∉ ancestorsOf (t.union vaultId graph) base
  match t.sessionVerdict vaultId graph (some head) with
  | .remoteAhead => behind (t.headOf vaultId).toList
  | .diverged mergeBases => behind mergeBases
  | _ => []

end Tables

/-- What `classify` returns. -/
theorem run_classify (vaultId : VaultId) (graph : RevisionGraph) (remoteHead : Option RevisionId)
    (d : Device) : (SyncSession.classify vaultId graph remoteHead : OnDevice Divergence).run d =
      some (.ok (d.store.tables.sessionVerdict vaultId graph remoteHead), d, []) := by
  unfold Tables.sessionVerdict Tables.headOf
  rw [SyncSession.classify, run_query_bind, Device.store_eq]
  cases (d.store.tables.getVault vaultId).bind (·.headRevisionId) <;> cases remoteHead
  case some.some localHead remoteHead =>
    show (SyncEngine.historySummary vaultId >>= _).run d = _
    rw [SyncEngine.historySummary, run_query_bind]
    rfl
  all_goals rfl

namespace Operation

/-- The call, made in `s`, leaves the revision stored: one that is received if its bytes have the
declared hash and its parents have all been stored. -/
def Leaves (deps : EngineDeps) (r : RevisionId) (s : Store) : Operation → Prop
  | ingestReceivedRevision _ input =>
    input.revisionId = r ∧ deps.sha256 input.bytes = input.declaredHash ∧
      (∀ p ∈ input.declaredParentIds, s.tables.hasRevision p = true) ∧
      s.tables.vaults.has input.vaultId = true
  | operation => ∃ t, operation.run deps s = some t ∧ t.tables.hasRevision r = true

end Operation

section Ends

variable {α β : Type} {s : Store}

/-- The store that a program leaves when nothing interrupts it. -/
def ends (p : Async Store (EngineEvent Unit) Failure α) (s : Store) : Option Store :=
  (p.run s).map (·.2.1)

theorem ends_query_bind (f : Tables → α) (k : α → Async Store (EngineEvent Unit) Failure β) :
    ends (query f >>= k) s = ends (k (f s.tables)) s := by
  rw [ends, run_query_bind]
  rfl

theorem ends_putBlob_bind (sha256 : Bytes → Sha256Hex) (bytes : Bytes)
    (k : Sha256Hex → Async Store (EngineEvent Unit) Failure β) :
    ends (putBlob sha256 bytes >>= k) s = ends (k (sha256 bytes)) (s.putBlob sha256 bytes) := by
  simp [ends, putBlob, Async.run, changeStore]
  rfl

/-- A statement that is refused changes nothing. -/
theorem ends_saveRevision_bind (revision : Revision)
    (k : Unit → Async Store (EngineEvent Unit) Failure β) :
    ends (SyncEngine.saveRevision revision >>= k) s =
      match s.tables.saveRevision revision with
      | .ok tables => ends (k ()) (s.setTables tables)
      | .error _ => some s := by
  rw [ends, SyncEngine.saveRevision, execute, act_bind, Async.run, store_self]
  cases hsave : s.tables.saveRevision revision with
  | ok tables =>
    simp [changeStore, Async.run, Except.map, ends, Function.comp_def]
    rfl
  | error e => rfl

theorem ends_firstMissing_bind (ids : List RevisionId)
    (k : Option RevisionId → Async Store (EngineEvent Unit) Failure β) :
    ends (SyncEngine.firstMissing ids >>= k) s =
      ends (k (ids.find? fun p => !s.tables.hasRevision p)) s := by
  induction ids with
  | nil => rfl
  | cons p rest ih =>
    rw [SyncEngine.firstMissing, Async.bind_assoc, ends_query_bind, List.find?_cons]
    cases s.tables.hasRevision p with
    | true => exact ih
    | false => rfl

end Ends

theorem hasRevision_saveRevision {t tables : Tables} {revision : Revision}
    (h : t.saveRevision revision = .ok tables) (r : RevisionId) :
    tables.hasRevision r = true ↔ t.hasRevision r = true ∨ revision.id = r := by
  obtain ⟨-, -, rfl⟩ := Tables.saveRevision_ok h
  show (t.revisions.insert revision.row).has r = true ↔ t.revisions.has r = true ∨ _
  rw [Table.has_iff, Table.has_iff]
  constructor
  · rintro ⟨row, hrow⟩
    rw [Table.find_insert, Revision.row_id] at hrow
    split at hrow
    · exact .inr ‹_›
    · exact .inl ⟨row, hrow⟩
  · rintro (⟨row, hrow⟩ | rfl)
    · exact ⟨row, Table.find_insert_of_find hrow⟩
    · exact Table.has_iff.mp (Table.has_insert t.revisions revision.row)

section Ingest

variable {deps : EngineDeps} {s t : Store} {r : RevisionId}

/-- What a received revision changes of what is stored. -/
theorem run_ingest {now : Nat} {input : IngestInput}
    (h : (Operation.ingestReceivedRevision now input).run deps s = some t) :
    t.tables.hasRevision r = true ↔ s.tables.hasRevision r = true ∨
      (Operation.ingestReceivedRevision now input).Leaves deps r s := by
  change ends (SyncEngine.ingestReceivedRevision deps now input >>= fun _ => .done ()) s =
    some t at h
  rw [SyncEngine.ingestReceivedRevision, Async.bind_assoc, ends_query_bind] at h
  by_cases hhas : s.tables.hasRevision input.revisionId = true
  · rw [if_pos hhas] at h
    cases h
    refine ⟨.inl, Or.rec id ?_⟩
    rintro ⟨rfl, -⟩
    exact hhas
  · rw [if_neg hhas] at h
    simp only at h
    by_cases hhash : deps.sha256 input.bytes = input.declaredHash
    · rw [if_neg (not_not.mpr hhash), Async.bind_assoc, ends_firstMissing_bind] at h
      cases hmissing : input.declaredParentIds.find? fun p => !s.tables.hasRevision p with
      | some p =>
        rw [hmissing] at h
        cases h
        refine ⟨.inl, Or.rec id ?_⟩
        rintro ⟨-, -, hparents, -⟩
        have hlacking := List.find?_some hmissing
        simp [hparents p (List.mem_of_find?_eq_some hmissing)] at hlacking
      | none =>
        have hparents : ∀ p ∈ input.declaredParentIds, s.tables.hasRevision p = true := by
          simpa using List.find?_eq_none.mp hmissing
        have hself : input.revisionId ∉ input.declaredParentIds := fun hmem =>
          hhas (hparents _ hmem)
        have hrevision : ∀ seed : RevisionSeed, seed.id = input.revisionId →
            receivedRevision seed input.declaredParentIds input.fromDeviceId =
              .ok (seed.base input.declaredParentIds .received (some input.fromDeviceId)) := by
          rintro seed hid
          rw [receivedRevision, hid, decide_eq_true hself]
          rfl
        simp only [hmissing, Async.bind_assoc] at h
        rw [ends_putBlob_bind, hrevision _ rfl, ofExcept_ok, done_bind, ends_saveRevision_bind] at h
        split at h
        case h_1 tables hsave =>
          cases h
          refine (hasRevision_saveRevision hsave r).trans (or_congr_right ?_)
          obtain ⟨-, hvault, -⟩ := Tables.saveRevision_ok hsave
          exact ⟨fun hid => ⟨hid, hhash, hparents, hvault.resolve_left hhas⟩, And.left⟩
        case h_2 e hsave =>
          cases h
          refine ⟨.inl, Or.rec id ?_⟩
          rintro ⟨-, -, -, hvault⟩
          cases hsave.symm.trans (Tables.saveRevision_of_stored hparents hvault)
    · rw [if_pos hhash] at h
      cases h
      refine ⟨.inl, Or.rec id ?_⟩
      rintro ⟨-, hsame, -⟩
      exact absurd hsame hhash

end Ingest

variable {deps : EngineDeps} {r : RevisionId}

/-- What one call changes of what is stored. -/
theorem hasRevision_run {operation : Operation} {s t : Store}
    (hs : (SyncEngine.history deps False).inv s) (hfresh : operation.Fresh s)
    (h : operation.run deps s = some t) :
    t.tables.hasRevision r = true ↔ s.tables.hasRevision r = true ∨ operation.Leaves deps r s := by
  have hgrows : s.tables.hasRevision r = true → t.tables.hasRevision r = true :=
    (Operation.run_history operation hs hfresh False.elim h).2.1.tables.hasRevision
  cases operation with
  | ingestReceivedRevision now input => exact run_ingest h
  | _ =>
    refine ⟨fun hr => .inr ⟨t, h, hr⟩, Or.rec hgrows ?_⟩
    rintro ⟨t', h', hr⟩
    cases h.symm.trans h'
    exact hr

/-- One of the calls leaves the revision stored. -/
def Served (deps : EngineDeps) (operations : List Operation) (s : Store) (r : RevisionId) : Prop :=
  ∃ before operation after u, operations = before ++ operation :: after ∧
    runAll deps before s = some u ∧ operation.Leaves deps r u

/-- What is stored after some calls was stored before them, or one of them has left it. -/
theorem hasRevision_runAll {operations : List Operation} {s t : Store}
    (hs : (SyncEngine.history deps False).inv s) (h : runAll deps operations s = some t) :
    t.tables.hasRevision r = true ↔ s.tables.hasRevision r = true ∨ Served deps operations s r := by
  induction operations generalizing s with
  | nil =>
    cases h
    refine ⟨.inl, Or.rec id ?_⟩
    rintro ⟨before, _, _, _, hsplit, -⟩
    cases before <;> cases hsplit
  | cons operation rest ih =>
    rw [runAll] at h
    split at h
    case isFalse => cases h
    case isTrue hall =>
      obtain ⟨u, hu, hrest⟩ := Option.bind_eq_some_iff.mp h
      have hfresh : operation.Fresh s := fun id hid => by simpa [hid] using hall
      have hinv := (Operation.run_history operation hs hfresh False.elim hu).1
      rw [ih hinv hrest, hasRevision_run hs hfresh hu, or_assoc]
      refine or_congr_right ⟨?_, ?_⟩
      · rintro (hleaves | ⟨before, later, after, v, rfl, hv, hleaves⟩)
        · exact ⟨[], operation, rest, s, rfl, rfl, hleaves⟩
        · refine ⟨operation :: before, later, after, v, rfl, ?_, hleaves⟩
          rw [runAll, if_pos hall, hu]
          exact hv
      · rintro ⟨before, later, after, v, hsplit, hv, hleaves⟩
        cases before with
        | nil =>
          cases hsplit
          cases hv
          exact .inl hleaves
        | cons _ before =>
          cases hsplit
          rw [runAll, if_pos hall, hu] at hv
          exact .inr ⟨before, later, after, v, rfl, hv, hleaves⟩

/-- What a session's verdict needs to be acted on. -/
structure Actionable (d : Device) (vaultId : VaultId) (graph : RevisionGraph) (head : RevisionId) :
    Prop where
  stored : ∀ r ∈ d.store.tables.between vaultId graph head, d.store.tables.hasRevision r = true
  /-- `fastForward` finds the revision. -/
  found : d.store.tables.sessionVerdict vaultId graph (some head) = .remoteAhead → ∃ revision,
    (SyncEngine.requireRevision head : OnDevice Revision).run d = some (.ok revision, d, [])
  opens : ∀ mergeBases,
    d.store.tables.sessionVerdict vaultId graph (some head) = .diverged mergeBases →
    ∀ now conflictId outcome d' trace,
      (VaultServices.openConflictFor now conflictId vaultId head).run d =
        some (outcome, d', trace) →
      outcome ≠ .error (.error "cannot record a conflict without both revisions")
  /-- The head is not moved onto a revision of which an ancestor is missing. -/
  whole : d.store.tables.sessionVerdict vaultId graph (some head) = .remoteAhead → ∀ r,
    ReflTransGen d.store.tables.StoredParent head r → d.store.tables.hasRevision r = true

theorem getRevision_of_has {t : Tables} (h : t.hasRevision r = true) :
    ∃ revision, t.getRevision r = some revision := by
  obtain ⟨row, hrow⟩ := Table.has_iff.mp h
  exact ⟨_, Tables.getRevision_eq_some.mpr ⟨row, hrow, rfl⟩⟩

theorem assert_bind_error {α : Type} {condition : Bool} {text : String}
    {f : Unit → Except Failure α} {e : Failure} (h : assert condition text >>= f = .error e) :
    (∃ m, e = .contract m) ∨ f () = .error e := by
  cases condition with
  | true => exact .inr h
  | false =>
    cases h
    exact .inl ⟨_, rfl⟩

theorem openConflict_error {conflictId : ConflictId} {vault : Vault} {current incoming : Revision}
    {now : Nat} {e : Failure} (h : openConflict conflictId vault current incoming now = .error e) :
    ∃ m, e = .contract m := by
  rcases assert_bind_error h with hfirst | h
  · exact hfirst
  · rcases assert_bind_error h with hsecond | h
    · exact hsecond
    · rcases assert_bind_error h with hthird | h
      · exact hthird
      · cases h

/-- With both revisions there, `openConflictFor` fails for other reasons only. -/
theorem run_openConflictFor {d d' : Device} {vaultId : VaultId} {vault : Vault}
    {current incoming : Revision} {head l : RevisionId}
    (hvault : d.store.tables.getVault vaultId = some vault) (hl : vault.headRevisionId = some l)
    (hcurrent : d.store.tables.getRevision l = some current)
    (hincoming : d.store.tables.getRevision head = some incoming) {now : Nat}
    {conflictId : ConflictId} {outcome : Except Failure ConflictId}
    {trace : List (Device × DeviceEvent)}
    (h : (VaultServices.openConflictFor now conflictId vaultId head).run d =
      some (outcome, d', trace)) (message : String) : outcome ≠ .error (.error message) := by
  rw [VaultServices.openConflictFor, run_query_bind, Device.store_eq, hvault, Option.bind_some, hl,
    VaultServices.revisionOf, run_query_bind, Device.store_eq, hcurrent, run_query_bind,
    Device.store_eq, hincoming] at h
  simp only at h
  rw [run_query_bind] at h
  split at h
  · cases h
    simp
  · cases hconflict : openConflict conflictId vault current incoming now with
    | error e =>
      obtain ⟨m, rfl⟩ := openConflict_error hconflict
      rw [hconflict] at h
      cases h
      simp
    | ok conflict =>
      rw [hconflict, ofExcept_ok, done_bind, VaultServices.saveConflict, execute, act_bind,
        Async.run, Device.store_eq] at h
      cases hsave : d.store.tables.saveConflict conflict with
      | ok tables =>
        simp only [hsave] at h
        cases h
        simp
      | error e =>
        have hsql : e = Tables.foreignKeyFailure := by
          unfold Tables.saveConflict at hsave
          split at hsave <;> cases hsave
          rfl
        subst hsql
        simp only [hsave] at h
        cases h
        simp [Tables.foreignKeyFailure]

theorem head_mem_between {t : Tables} {vaultId : VaultId} {graph : RevisionGraph}
    {head : RevisionId} (h : t.sessionVerdict vaultId graph (some head) = .remoteAhead ∨
      ∃ mergeBases, t.sessionVerdict vaultId graph (some head) = .diverged mergeBases) :
    head ∈ t.between vaultId graph head := by
  unfold Tables.between
  rcases h with h | ⟨mergeBases, h⟩ <;> rw [h] <;> exact List.mem_cons_self

/-- Histories only diverge where we have a head. -/
theorem headOf_of_diverged {t : Tables} {vaultId : VaultId} {graph : RevisionGraph}
    {head : RevisionId} {mergeBases : List RevisionId}
    (h : t.sessionVerdict vaultId graph (some head) = .diverged mergeBases) :
    ∃ vault l, t.getVault vaultId = some vault ∧ vault.headRevisionId = some l := by
  unfold Tables.sessionVerdict Tables.headOf at h
  split at h
  case h_4 l _ hl _ =>
    obtain ⟨vault, hvault, hl⟩ := Option.bind_eq_some_iff.mp hl
    exact ⟨vault, l, hvault, hl⟩
  all_goals cases h

theorem actionable_of_stored {d : Device} {vaultId : VaultId} {graph : RevisionGraph}
    {head : RevisionId} (hd : d.store.WellFormed deps.sha256)
    (hstored : ∀ r ∈ d.store.tables.between vaultId graph head,
      d.store.tables.hasRevision r = true) : Actionable d vaultId graph head where
  stored := hstored
  found hahead := by
    obtain ⟨revision, hrevision⟩ := getRevision_of_has (hstored _ (head_mem_between (.inl hahead)))
    refine ⟨revision, ?_⟩
    rw [SyncEngine.requireRevision, run_query_bind, Device.store_eq, hrevision]
    rfl
  opens mergeBases hdiverged now conflictId outcome d' trace hrun := by
    obtain ⟨incoming, hincoming⟩ :=
      getRevision_of_has (hstored _ (head_mem_between (.inr ⟨_, hdiverged⟩)))
    obtain ⟨vault, l, hvault, hl⟩ := headOf_of_diverged hdiverged
    obtain ⟨row, hrow, -⟩ := hd.heads vaultId vault hvault l hl
    obtain ⟨current, hcurrent⟩ := getRevision_of_has (Table.has_iff.mpr ⟨row, hrow⟩)
    exact run_openConflictFor hvault hl hcurrent hincoming hrun _
  whole hahead r hr := by
    rcases ReflTransGen.cases_tail hr with rfl | ⟨x, -, hparent⟩
    · exact hstored _ (head_mem_between (.inl hahead))
    · exact (hd.closed x r hparent).2

theorem parent_union {t : Tables} {vaultId : VaultId} {graph : RevisionGraph} {x p : RevisionId}
    (hx : graph.has x = true) (hp : Parent (t.union vaultId graph) x p) : Parent graph x p := by
  rw [Tables.union, parent_unionGraphs] at hp
  exact hp.elim And.right fun hnot => absurd hx hnot.1

/-- A history that defines all it refers to says itself what lies behind its head. -/
theorem told_of_mem_between {t : Tables} {vaultId : VaultId} {graph : RevisionGraph}
    {head r : RevisionId} (hclosed : graph.ParentClosed) (hhead : graph.has head = true)
    (hr : r ∈ t.between vaultId graph head) :
    ReflTransGen (Parent graph) head r ∧ graph.has r = true := by
  have hpath : ReflTransGen (Parent (t.union vaultId graph)) head r := by
    have hancestor : ∀ {p : RevisionId → Bool},
        r ∈ head :: (ancestorsOf (t.union vaultId graph) head).filter p →
          ReflTransGen (Parent (t.union vaultId graph)) head r := by
      intro p hmem
      rcases List.mem_cons.mp hmem with rfl | hmem
      · exact .refl
      · exact mem_ancestorsOf.mp (List.mem_filter.mp hmem).1
    unfold Tables.between at hr
    simp only at hr
    split at hr
    · exact hancestor hr
    · exact hancestor hr
    · cases hr
  clear hr
  induction hpath with
  | refl => exact ⟨.refl, hhead⟩
  | tail _ hp ih =>
    obtain ⟨hreach, hhas⟩ := ih
    have hparent := parent_union hhas hp
    exact ⟨hreach.tail hparent, hclosed _ _ hparent⟩

/-- A verdict can be acted on exactly if the peer's head, and all that its history has between that
and ours, was held or has been served. -/
theorem actionable_iff_served (deps : EngineDeps) (s : Store)
    (hs : Runs deps anyCall Store.empty s) (operations : List Operation) (d : Device)
    (h : runAll deps operations s = some d.store) (vaultId : VaultId) (graph : RevisionGraph)
    (head : RevisionId) :
    Actionable d vaultId graph head ↔ ∀ r ∈ d.store.tables.between vaultId graph head,
      s.tables.hasRevision r = true ∨ Served deps operations s r := by
  have hinv := (hs.history False.elim Runs.empty_history).1
  have hruns := Runs.of_runAll operations (fun _ _ _ => trivial) h
  have hd : d.store.WellFormed deps.sha256 := (hruns.history False.elim hinv).1.1
  constructor
  · intro hactionable r hr
    exact (hasRevision_runAll hinv h).mp (hactionable.stored r hr)
  · intro hserved
    exact actionable_of_stored hd fun r hr => (hasRevision_runAll hinv h).mpr (hserved r hr)

theorem hasRevision_of_summary {t : Tables} {vaultId : VaultId}
    (h : r ∈ (t.historySummary vaultId).map (·.revisionId)) : t.hasRevision r = true := by
  simp only [Tables.historySummary, Tables.listRevisions, List.map_map, List.mem_map,
    List.mem_mergeSort] at h
  obtain ⟨row, hrow, rfl⟩ := h
  exact Table.has_iff.mpr ⟨row, Table.find_of_mem (List.mem_filter.mp hrow).1⟩

/-- It is enough that the peer serves what it is asked for, if its history defines all it refers to
and its head. -/
theorem actionable_of_wanted {s : Store} (hs : Runs deps anyCall Store.empty s)
    {operations : List Operation} {d : Device} (h : runAll deps operations s = some d.store)
    {vaultId : VaultId} {graph : RevisionGraph} {head : RevisionId} (hclosed : graph.ParentClosed)
    (hhead : graph.has head = true) {wanted : List RevisionId}
    (hwanted : missingRevisions graph head
      (fun id => id ∈ (s.tables.historySummary vaultId).map (·.revisionId)) = .ok wanted)
    (hserved : ∀ r ∈ wanted, Served deps operations s r) : Actionable d vaultId graph head := by
  have hinv := (hs.history False.elim Runs.empty_history).1
  have hruns := Runs.of_runAll operations (fun _ _ _ => trivial) h
  apply actionable_of_stored (hruns.history False.elim hinv).1.1
  intro r hr
  obtain ⟨hreach, hhas⟩ := told_of_mem_between hclosed hhead hr
  refine (hasRevision_runAll hinv h).mpr ?_
  by_cases hheld : r ∈ (s.tables.historySummary vaultId).map (·.revisionId)
  · exact .inl (hasRevision_of_summary hheld)
  · exact .inr (hserved r (((missingRevisions_ok hwanted).mem_iff r).mpr
      ⟨hreach, decide_eq_false hheld, hhas⟩))

/-- The laptop has one version of the vault. -/
def laptopImports : List Operation := [.importVault ⟨"home"⟩ ⟨⟨"h1"⟩, 1⟩ "home.kdbx" [1] none]

/-- The phone has told that it has a second one, and has sent it. -/
def secondVersion : Operation :=
  .ingestReceivedRevision 2
    ⟨⟨"home"⟩, ⟨"h2"⟩, [⟨"h1"⟩], plainDeps.sha256 [1, 1], [1, 1], ⟨"phone"⟩, none⟩

def phoneHistory : List HistorySummaryEntry :=
  [⟨⟨"h1"⟩, plainDeps.sha256 [1], 1, []⟩, ⟨⟨"h2"⟩, plainDeps.sha256 [1, 1], 2, [⟨"h1"⟩]⟩]

theorem phoneHistory_closed : (buildGraph (summaryNodes phoneHistory)).ParentClosed :=
  parentClosed_of_nodes (by decide)

theorem actionable_phoneSends :
    Actionable (Device.of (storeAfter (laptopImports ++ [secondVersion])) ⟨"home"⟩) ⟨"home"⟩
      (buildGraph (summaryNodes phoneHistory)) ⟨"h2"⟩ := by
  have hruns : Runs plainDeps anyCall Store.empty (storeAfter laptopImports) :=
    Runs.of_runAll laptopImports (fun _ _ _ => trivial) rfl
  refine (actionable_iff_served plainDeps (storeAfter laptopImports) hruns [secondVersion] _ rfl
    _ _ _).mpr ?_
  intro r hr
  have hids := RevisionGraph.mem_ids.mpr (told_of_mem_between phoneHistory_closed (by decide) hr).2
  obtain rfl | rfl : r = ⟨"h1"⟩ ∨ r = ⟨"h2"⟩ := by
    have hboth : (buildGraph (summaryNodes phoneHistory)).ids = [⟨"h1"⟩, ⟨"h2"⟩] := by decide
    simpa [hboth] using hids
  · exact .inl rfl
  · exact .inr ⟨[], secondVersion, [], _, rfl, rfl, rfl, rfl, by decide, rfl⟩

/-- The laptop joins the vault, and the phone tells of its history and sends none of it. -/
def joined : Device := .of (storeAfter [.adoptVault 1 ⟨"home"⟩ "home.kdbx"]) ⟨"home"⟩

/-- There is a verdict, and `fastForward` fails. -/
theorem not_actionable_joined :
    ¬ Actionable joined ⟨"home"⟩ (buildGraph (summaryNodes phoneHistory)) ⟨"h2"⟩ ∧
      ∃ d trace, (VaultServices.endSession ⟨plainDeps, .desktop⟩ 2 ⟨"c"⟩
        ⟨⟨"home"⟩, ⟨"phone"⟩, phoneHistory, some ⟨"h2"⟩⟩).run joined =
          some (.error (.contract "Contract violation: unknown revision h2"), d, trace) := by
  refine ⟨fun hactionable => ?_, _, _, rfl⟩
  have hverdict : joined.store.tables.sessionVerdict ⟨"home"⟩
      (buildGraph (summaryNodes phoneHistory)) (some ⟨"h2"⟩) = .remoteAhead := rfl
  have hstored := hactionable.stored ⟨"h2"⟩ (head_mem_between (.inl hverdict))
  cases hstored

end PassVault
