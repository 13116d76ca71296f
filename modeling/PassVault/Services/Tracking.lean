import Mathlib.Data.List.Sort
import PassVault.Lib.Machine
import PassVault.Storage.MetadataStore

/-!
# Which vault is tracked

`bindVault`, `stopTrackingVault`, `saveVaultAs`, `setActiveVault`, `startWatching` and `start` of
`VaultServices` (`packages/services/src/vaultServices.ts`), the vaults that sessions adopt and the
moves of a head, as calls that interleave at their awaits over the rows of the vaults. What is in a
file does not matter here, and an import that has begun to write commits.
-/

namespace PassVault

open Machine

/-- `ORDER BY created_at`, as a sort that evaluates. -/
def Tables.vaultsInOrder (t : Tables) : List Vault :=
  t.vaults.rows.insertionSort fun v w => v.createdAt ≤ w.createdAt

theorem orderedInsert_append {v : Vault} {older newer : List Vault}
    (holder : ∀ w ∈ older, ¬ v.createdAt ≤ w.createdAt)
    (hnewer : ∀ w ∈ newer, v.createdAt ≤ w.createdAt) :
    (older ++ newer).orderedInsert (fun v w => v.createdAt ≤ w.createdAt) v =
      older ++ v :: newer := by
  induction older with
  | nil =>
    cases newer with
    | nil => rfl
    | cons w rest => exact List.orderedInsert_cons_of_le _ rest (hnewer w List.mem_cons_self)
  | cons w rest ih =>
    rw [List.cons_append, List.orderedInsert, if_neg (holder w List.mem_cons_self),
      ih fun u hu => holder u (List.mem_cons_of_mem w hu)]
    rfl

/-- The sorts agree: both are stable. -/
theorem insertionSort_eq_mergeSort (vaults : List Vault) :
    vaults.insertionSort (fun v w => v.createdAt ≤ w.createdAt) =
      vaults.mergeSort fun v w => v.createdAt ≤ w.createdAt := by
  have htrans : ∀ u v w : Vault, decide (u.createdAt ≤ v.createdAt) = true →
      decide (v.createdAt ≤ w.createdAt) = true → decide (u.createdAt ≤ w.createdAt) = true := by
    intro u v w huv hvw
    simp only [decide_eq_true_eq] at huv hvw ⊢
    omega
  have htotal : ∀ u v : Vault,
      (decide (u.createdAt ≤ v.createdAt) || decide (v.createdAt ≤ u.createdAt)) = true := by
    intro u v
    simp only [Bool.or_eq_true, decide_eq_true_eq]
    omega
  induction vaults with
  | nil => simp
  | cons v rest ih =>
    obtain ⟨older, newer, hsorted, hrest, holder⟩ := List.mergeSort_cons htrans htotal v rest
    have hpairs := List.pairwise_mergeSort htrans htotal (v :: rest)
    rw [hsorted] at hpairs ⊢
    rw [List.insertionSort_cons, ih, hrest]
    refine orderedInsert_append (fun w hw => ?_) fun w hw => ?_
    · simpa using holder w hw
    · have hafter := List.rel_of_pairwise_cons (List.pairwise_append.mp hpairs).2.1 hw
      exact of_decide_eq_true hafter

theorem Tables.vaultsInOrder_eq (t : Tables) : t.vaultsInOrder = t.listVaults :=
  insertionSort_eq_mergeSort t.vaults.rows

/-- What a call does next. -/
inductive TrackingCall where
  /-- `bindVault` has found the vault. -/
  | bindKnown (vaultId : VaultId) (path : FilePath)
  /-- `bindVault` reads the file. -/
  | bindUnknown (path : FilePath)
  /-- `importVault` has saved the row, and its head is next. -/
  | importing (row : Vault) (path : FilePath)
  | imported (vaultId : VaultId) (path : FilePath)
  /-- `startWatching` waits until the old watch stops. Then a known file is recorded. -/
  | startWatching (path : FilePath) (known : Bool)
  | recordFileNow
  | recordLocalChange (vaultId : VaultId) (path : FilePath)
  /-- A head is about to be moved in a row that was read. -/
  | commitHeadMove (row : Vault)
  | saveVaultAs (vaultId : VaultId) (path : FilePath)
  /-- `bindVaultToFile` has read the row. -/
  | bindVaultToFile (row : Vault) (path : FilePath)
  | stopTrackingVault
  | session (vaultId : Option VaultId)
  /-- `adoptVault` has found no row. -/
  | adoptVault (vault : Vault)
  | adopted (vaultId : VaultId)
deriving DecidableEq, Repr

structure Tracking where
  tables : Tables
  vaultId : Option VaultId
  watcher : Option FilePath
  started : Nat
  calls : Nat → Option TrackingCall
  /-- The vault whose row was last written with this path. No call looks at it. -/
  lastBound : FilePath → Option VaultId

inductive TrackingAction where
  | bindVault (path : FilePath)
  | importVault (call : Nat) (vault : Vault)
  | moveHead (call : Nat) (revisionId : RevisionId)
  | saveVaultAs (path : FilePath)
  | stopTrackingVault
  /-- Any call that moves the head of a vault reads its row. -/
  | readVault (vaultId : VaultId)
  | runSession
  /-- The peer of a session without a vault tells which one it has. -/
  | vaultSummary (call : Nat) (vault : Vault)
  | completes (call : Nat)
  | proceed (call : Nat)
  | fails (call : Nat)
  /-- The process stops, and `start` opens the store again. -/
  | restart
deriving DecidableEq, Repr

/-- Calls throw where they read, write or wait for the peer. -/
def TrackingCall.mayFail : TrackingCall → Bool
  | bindUnknown _ | recordFileNow | recordLocalChange .. | commitHeadMove _ | saveVaultAs ..
  | bindVaultToFile .. | session _ | adoptVault _ => true
  | _ => false

def TrackingCall.isSession : TrackingCall → Bool
  | session _ | adoptVault _ | adopted _ => true
  | _ => false

namespace Tracking

def activeVaultKey : String := "activeVault"

def fresh : Tracking := ⟨.empty, none, none, 0, fun _ => none, fun _ => none⟩

def set (i : Nat) (call : Option TrackingCall) (s : Tracking) : Tracking :=
  { s with calls := Function.update s.calls i call }

def start (call : TrackingCall) (s : Tracking) : Tracking :=
  { s.set s.started (some call) with started := s.started + 1 }

def setActiveVault (vaultId : Option VaultId) (s : Tracking) : Tracking :=
  { s with
    vaultId := vaultId
    tables := match vaultId with
      | none => s.tables.deleteSetting activeVaultKey
      | some vaultId => s.tables.saveSetting activeVaultKey vaultId.value }

def saveVault (row : Vault) (s : Tracking) : Tracking :=
  { s with
    tables := s.tables.saveVault row
    lastBound := match row.kdbxPath with
      | none => s.lastBound
      | some path => Function.update s.lastBound path (some row.id) }

/-- The active vault of a store that is opened: the chosen one, or the newest. -/
def storedActive (tables : Tables) : Option Vault :=
  (tables.vaultsInOrder.find? fun vault =>
    some vault.id.value = tables.setting activeVaultKey).or tables.vaultsInOrder.getLast?

/-- The watch of a path, where the platform can watch. -/
def watched (canWatch : Bool) (path : Option FilePath) : Option FilePath :=
  if canWatch then path else none

def pathOf (s : Tracking) (vaultId : VaultId) : Option FilePath :=
  (s.tables.getVault vaultId).bind (·.kdbxPath)

/-- A call goes on after its await. -/
def proceed (canWatch : Bool) (i : Nat) (s : Tracking) : TrackingCall → Option Tracking
  | .bindKnown vaultId path =>
    some ((s.setActiveVault (some vaultId)).set i (some (.startWatching path true)))
  | .imported vaultId path =>
    some ((s.setActiveVault (some vaultId)).set i (some (.startWatching path false)))
  | .startWatching path known =>
    let next := if known then some .recordFileNow else none
    some { s.set i next with watcher := watched canWatch (some path) }
  | .recordFileNow =>
    some (s.set i (s.vaultId.bind fun vaultId =>
      (s.pathOf vaultId).map fun path => .recordLocalChange vaultId path))
  | .recordLocalChange vaultId _ =>
    some (s.set i ((s.tables.getVault vaultId).map .commitHeadMove))
  | .saveVaultAs vaultId path =>
    some (s.set i ((s.tables.getVault vaultId).map fun row => .bindVaultToFile row path))
  | .bindVaultToFile row path =>
    some ((s.saveVault { row with kdbxPath := some path }).set i
      (some (.startWatching path false)))
  | .stopTrackingVault => some ({ s.setActiveVault none with watcher := none }.set i none)
  | .adoptVault vault => some ((s.saveVault vault).set i (some (.adopted vault.id)))
  | .adopted vaultId =>
    some ((s.setActiveVault (some vaultId)).set i (some (.session (some vaultId))))
  | _ => none

def step (canWatch : Bool) (s : Tracking) : TrackingAction → Option Tracking
  | .bindVault path =>
    match s.tables.vaultsInOrder.find? fun vault => vault.kdbxPath = some path with
    | some known => some (s.start (.bindKnown known.id path))
    | none => some (s.start (.bindUnknown path))
  | .importVault i vault =>
    match s.calls i with
    | some (.bindUnknown path) =>
      -- The id is fresh.
      if s.tables.getVault vault.id = none ∧ vault.kdbxPath = some path then
        some ((s.saveVault vault).set i (some (.importing vault path)))
      else none
    | _ => none
  | .moveHead i revisionId =>
    match s.calls i with
    | some (.importing row path) =>
      some ((s.saveVault { row with headRevisionId := some revisionId }).set i
        (some (.imported row.id path)))
    | some (.commitHeadMove row) =>
      some ((s.saveVault { row with headRevisionId := some revisionId }).set i none)
    | _ => none
  | .saveVaultAs path =>
    match s.vaultId with
    | none => some s
    | some vaultId =>
      match (s.tables.getVault vaultId).bind (·.headRevisionId) with
      | none => some s
      | some _ => some (s.start (.saveVaultAs vaultId path))
  | .stopTrackingVault => some (s.start .stopTrackingVault)
  | .readVault vaultId => (s.tables.getVault vaultId).map fun row => s.start (.commitHeadMove row)
  | .runSession => some (s.start (.session s.vaultId))
  | .vaultSummary i vault =>
    match s.calls i with
    | some (.session none) =>
      if vault.kdbxPath = none then
        match s.tables.getVault vault.id with
        | some _ => some (s.set i (some (.adopted vault.id)))
        | none => some (s.set i (some (.adoptVault vault)))
      else none
    | _ => none
  | .completes i =>
    match s.calls i with
    | some (.session (some vaultId)) => some ((s.setActiveVault (some vaultId)).set i none)
    | _ => none
  | .proceed i => (s.calls i).bind (s.proceed canWatch i)
  | .fails i =>
    match s.calls i with
    | some call => if call.mayFail then some (s.set i none) else none
    | none => none
  | .restart =>
    let t := { s with calls := fun _ => none, vaultId := none, watcher := none }
    match storedActive s.tables with
    | none => some t
    | some active =>
      some { t.setActiveVault (some active.id) with watcher := watched canWatch active.kdbxPath }

/-! ## One vault for a file -/

/-- The row of a vault that an action writes. -/
def writes (s : Tracking) : TrackingAction → Option Vault
  | .importVault _ vault => some vault
  | .moveHead i revisionId =>
    match s.calls i with
    | some (.importing row _) | some (.commitHeadMove row) =>
      some { row with headRevisionId := some revisionId }
    | _ => none
  | .proceed i =>
    match s.calls i with
    | some (.bindVaultToFile row path) => some { row with kdbxPath := some path }
    | some (.adoptVault vault) => some vault
    | _ => none
  | _ => none

/-- No two vaults have one file, a known file leads back to the vault it was last bound to, and
what is recorded there is of no other vault. -/
structure OnePerFile (canWatch : Bool) (actions : List TrackingAction) : Prop where
  unique : ∀ before after s v w path, actions = before ++ after →
    play (step canWatch) fresh before = some s → v ∈ s.tables.vaults.rows →
    w ∈ s.tables.vaults.rows → v.kdbxPath = some path → w.kdbxPath = some path → v = w
  returns : ∀ before path after s t known, actions = before ++ .bindVault path :: after →
    play (step canWatch) fresh before = some s → step canWatch s (.bindVault path) = some t →
    known ∈ s.tables.vaults.rows → known.kdbxPath = some path →
    ∃ vaultId, s.lastBound path = some vaultId ∧
      t.calls s.started = some (.bindKnown vaultId path)
  records : ∀ before i after s t vaultId path v, actions = before ++ .proceed i :: after →
    play (step canWatch) fresh before = some s → step canWatch s (.proceed i) = some t →
    t.calls i = some (.recordLocalChange vaultId path) → v ∈ s.tables.vaults.rows →
    v.kdbxPath = some path → v.id = vaultId

/-- A row is written with a path that no other row has. -/
def Alone (s : Tracking) (action : TrackingAction) : Prop :=
  ∀ row ∈ s.writes action, ∀ path ∈ row.kdbxPath, ∀ other ∈ s.tables.vaults.rows,
    other.kdbxPath = some path → other.id = row.id

instance (s : Tracking) : DecidablePred s.Alone := fun action => inferInstanceAs (Decidable
  (∀ row ∈ s.writes action, ∀ path ∈ row.kdbxPath, ∀ other ∈ s.tables.vaults.rows,
    other.kdbxPath = some path → other.id = row.id))

variable {canWatch : Bool} {s t : Tracking} {action : TrackingAction}

theorem getVault_saveVault (row : Vault) (tables : Tables) (k : VaultId) :
    (tables.saveVault row).getVault k = if row.id = k then
      some ((tables.getVault k).elim row fun old => { old with
        name := row.name, kdbxPath := row.kdbxPath, headRevisionId := row.headRevisionId })
      else tables.getVault k :=
  Table.find_upsert ..

/-- The row that is written. -/
theorem getVault_saved (row : Vault) (tables : Tables) :
    ∃ saved, (tables.saveVault row).getVault row.id = some saved ∧
      saved.kdbxPath = row.kdbxPath := by
  refine ⟨_, (getVault_saveVault ..).trans (if_pos rfl), ?_⟩
  cases tables.getVault row.id <;> rfl

theorem mem_saveVault {row v : Vault} {tables : Tables}
    (h : v ∈ (tables.saveVault row).vaults.rows) :
    (v.id = row.id ∧ v.kdbxPath = row.kdbxPath) ∨ (v.id ≠ row.id ∧ v ∈ tables.vaults.rows) := by
  have hfind : (tables.saveVault row).getVault v.id = some v := Table.find_of_mem h
  by_cases hid : row.id = v.id
  · obtain ⟨saved, hsaved, hpath⟩ := getVault_saved row tables
    rw [hid, hfind] at hsaved
    cases hsaved
    exact .inl ⟨hid.symm, hpath⟩
  · rw [getVault_saveVault, if_neg hid] at hfind
    exact .inr ⟨Ne.symm hid, Table.mem_of_find hfind⟩

/-- An action writes one row of a vault, or none. -/
theorem vaults_step (h : step canWatch s action = some t) :
    (∃ row, s.writes action = some row ∧ t.tables.vaults = (s.tables.saveVault row).vaults ∧
      t.lastBound = (s.saveVault row).lastBound) ∨
    (s.writes action = none ∧ t.tables.vaults = s.tables.vaults ∧ t.lastBound = s.lastBound) := by
  cases action <;> simp only [step] at h
  case bindVault path =>
    split at h <;> cases h <;> exact .inr ⟨rfl, rfl, rfl⟩
  case importVault i vault =>
    split at h
    · split at h <;> cases h
      exact .inl ⟨vault, rfl, rfl, rfl⟩
    · cases h
  case moveHead i revisionId =>
    split at h <;> rename_i hi <;> cases h
    · exact .inl ⟨_, by simp only [writes, hi], rfl, rfl⟩
    · exact .inl ⟨_, by simp only [writes, hi], rfl, rfl⟩
  case saveVaultAs path =>
    split at h
    · cases h
      exact .inr ⟨rfl, rfl, rfl⟩
    · split at h <;> cases h <;> exact .inr ⟨rfl, rfl, rfl⟩
  case readVault vaultId =>
    obtain ⟨row, -, rfl⟩ := Option.map_eq_some_iff.mp h
    exact .inr ⟨rfl, rfl, rfl⟩
  case vaultSummary i vault =>
    split at h
    · split at h
      · split at h <;> cases h <;> exact .inr ⟨rfl, rfl, rfl⟩
      · cases h
    · cases h
  case completes i =>
    split at h <;> cases h
    exact .inr ⟨rfl, rfl, rfl⟩
  case proceed i =>
    obtain ⟨call, hi, hgo⟩ := Option.bind_eq_some_iff.mp h
    cases call <;> cases hgo
    case bindVaultToFile row path => exact .inl ⟨_, by simp only [writes, hi], rfl, rfl⟩
    case adoptVault vault => exact .inl ⟨_, by simp only [writes, hi], rfl, rfl⟩
    all_goals exact .inr ⟨by simp only [writes, hi], rfl, rfl⟩
  case fails i =>
    split at h
    · split at h <;> cases h
      exact .inr ⟨rfl, rfl, rfl⟩
    · cases h
  case restart =>
    split at h <;> cases h <;> exact .inr ⟨rfl, rfl, rfl⟩
  all_goals
    cases h
    exact .inr ⟨rfl, rfl, rfl⟩

/-- The vault of a row is the one that its file was last bound to. -/
def Bound (s : Tracking) : Prop :=
  ∀ row ∈ s.tables.vaults.rows, ∀ path ∈ row.kdbxPath, s.lastBound path = some row.id

theorem Bound.step (hs : Bound s) (hC : s.Alone action)
    (h : Tracking.step canWatch s action = some t) : Bound t := by
  rcases vaults_step h with ⟨row, hwrites, hvaults, hbound⟩ | ⟨-, hvaults, hbound⟩
  · intro v hv path hpath
    rw [hvaults] at hv
    rw [hbound]
    rcases mem_saveVault hv with ⟨hid, hsame⟩ | ⟨hid, hold⟩
    · rw [hsame] at hpath
      simp only [saveVault, Option.mem_def.mp hpath]
      rw [Function.update_self, hid]
    · have hlast := hs v hold path hpath
      unfold saveVault
      cases hrow : row.kdbxPath with
      | none => exact hlast
      | some bound =>
        have hne : path ≠ bound := by
          rintro rfl
          exact hid (hC row hwrites path hrow v hold hpath)
        exact (Function.update_of_ne hne ..).trans hlast
  · intro v hv path hpath
    rw [hvaults] at hv
    rw [hbound]
    exact hs v hv path hpath

theorem bound_play {actions : List TrackingAction} (hmeets : Meets (step canWatch) Alone fresh actions)
    (h : play (step canWatch) fresh actions = some s) : Bound s :=
  hmeets.keeps (fun _ _ _ hs hC hstep => hs.step hC hstep) h nofun

theorem Bound.unique (hs : Bound s) {v w : Vault} {path : FilePath}
    (hv : v ∈ s.tables.vaults.rows) (hw : w ∈ s.tables.vaults.rows)
    (hvpath : v.kdbxPath = some path) (hwpath : w.kdbxPath = some path) : v = w := by
  have hid : v.id = w.id := Option.some.inj ((hs v hv path hvpath).symm.trans (hs w hw path hwpath))
  have hfind := Table.find_of_mem hv
  rw [hid, Table.find_of_mem hw] at hfind
  exact (Option.some.inj hfind).symm

/-- What is written leaves each file to one vault only if no other vault had it. -/
theorem alone_of_unique (h : step canWatch s action = some t)
    (hunique : ∀ v w path, v ∈ t.tables.vaults.rows → w ∈ t.tables.vaults.rows →
      v.kdbxPath = some path → w.kdbxPath = some path → v = w) : s.Alone action := by
  intro row hwrites path hpath other hother hsame
  rcases vaults_step h with ⟨row', hwrites', hvaults, -⟩ | ⟨hnone, -⟩
  · cases hwrites.symm.trans hwrites'
    by_contra hne
    obtain ⟨saved, hsaved, hsavedPath⟩ := getVault_saved row s.tables
    have hstays : (s.tables.saveVault row).getVault other.id = some other := by
      rw [getVault_saveVault, if_neg (Ne.symm hne)]
      exact Table.find_of_mem hother
    have heq := hunique saved other path (hvaults ▸ Table.mem_of_find hsaved)
      (hvaults ▸ Table.mem_of_find hstays) (hsavedPath.trans hpath) hsame
    exact hne (heq ▸ Table.key_of_find hsaved)
  · cases hnone.symm.trans hwrites

theorem mem_vaultsInOrder {v : Vault} {tables : Tables} :
    v ∈ tables.vaultsInOrder ↔ v ∈ tables.vaults.rows := List.mem_insertionSort _

/-- `recordFileNow` records the file of the active vault. -/
theorem proceed_recordLocalChange {i : Nat} {vaultId : VaultId} {path : FilePath}
    (h : step canWatch s (.proceed i) = some t)
    (hi : t.calls i = some (.recordLocalChange vaultId path)) : s.pathOf vaultId = some path := by
  simp only [step] at h
  obtain ⟨call, -, hgo⟩ := Option.bind_eq_some_iff.mp h
  cases call <;> cases hgo
  case recordFileNow =>
    have hnext := (Function.update_self ..).symm.trans hi
    obtain ⟨v, -, hnext⟩ := Option.bind_eq_some_iff.mp hnext
    obtain ⟨p, hp, hnext⟩ := Option.map_eq_some_iff.mp hnext
    cases hnext
    exact hp
  case recordLocalChange =>
    have hnext := (Function.update_self ..).symm.trans hi
    obtain ⟨row, -, hnext⟩ := Option.map_eq_some_iff.mp hnext
    cases hnext
  case saveVaultAs =>
    have hnext := (Function.update_self ..).symm.trans hi
    obtain ⟨row, -, hnext⟩ := Option.map_eq_some_iff.mp hnext
    cases hnext
  case startWatching watched known =>
    have hnext := (Function.update_self ..).symm.trans hi
    cases known <;> cases hnext
  all_goals cases (Function.update_self ..).symm.trans hi

/-- Files and vaults stay one to one in exactly those runs in which no row is written with the path
of another vault. -/
theorem one_per_file_iff (canWatch : Bool) (actions : List TrackingAction) (t : Tracking)
    (h : play (step canWatch) fresh actions = some t) :
    OnePerFile canWatch actions ↔ Meets (step canWatch) Alone fresh actions := by
  constructor
  · intro hone
    refine (meets_iff h).mpr fun before action after s hsplit hs => ?_
    obtain ⟨u, u', hu, hstep, -⟩ := play_around (hsplit ▸ h)
    cases hs.symm.trans hu
    apply alone_of_unique hstep
    intro v w path hv hw
    exact hone.unique (before ++ [action]) after u' v w path (by rw [hsplit]; simp)
      (play_concat hs hstep) hv hw
  · intro hmeets
    have hreached : ∀ before after s, actions = before ++ after →
        play (step canWatch) fresh before = some s → Bound s := by
      intro before after s hsplit hs
      exact bound_play (hsplit ▸ hmeets).of_append hs
    refine ⟨fun before after s v w path hsplit hs hv hw => (hreached before after s hsplit hs).unique
      hv hw, fun before path after s u known hsplit hs hstep hknown hpath => ?_,
      fun before i after s u vaultId path v hsplit hs hstep hi hv hpath => ?_⟩
    · have hbound := hreached before _ s hsplit hs
      simp only [step] at hstep
      split at hstep
      case h_1 found hfound =>
        cases hstep
        have hmem := mem_vaultsInOrder.mp (List.mem_of_find?_eq_some hfound)
        have hfoundPath : found.kdbxPath = some path := by simpa using List.find?_some hfound
        exact ⟨found.id, hbound found hmem path hfoundPath, Function.update_self ..⟩
      case h_2 hnone =>
        have hne := List.find?_eq_none.mp hnone known (mem_vaultsInOrder.mpr hknown)
        exact absurd (decide_eq_true hpath) hne
    · have hbound := hreached before _ s hsplit hs
      obtain ⟨row, hrow, hrowPath⟩ := Option.bind_eq_some_iff.mp
        (proceed_recordLocalChange hstep hi)
      rw [hbound.unique hv (Table.mem_of_find hrow) hpath hrowPath]
      exact Table.key_of_find hrow

def homePath : FilePath := ⟨"home.kdbx"⟩

def workPath : FilePath := ⟨"work.kdbx"⟩

def homeVault : Vault := ⟨⟨"home"⟩, "home.kdbx", none, some homePath, 1⟩

def workVault : Vault := ⟨⟨"work"⟩, "work.kdbx", none, some workPath, 2⟩

/-- `bindVault` on two files that are new here. -/
def bindBoth : List TrackingAction :=
  [.bindVault homePath, .importVault 0 homeVault, .moveHead 0 ⟨"r"⟩, .proceed 0, .proceed 0,
    .bindVault workPath, .importVault 1 workVault, .moveHead 1 ⟨"w"⟩, .proceed 1, .proceed 1]

/-- Two files are bound, and the first one again. -/
theorem one_per_file_iff_again : OnePerFile true (bindBoth ++ [.bindVault homePath]) := by
  have hplays : (play (step true) fresh (bindBoth ++ [.bindVault homePath])).isSome := by
    decide +kernel
  obtain ⟨t, ht⟩ := Option.isSome_iff_exists.mp hplays
  exact (one_per_file_iff true _ t ht).mpr (by decide +kernel)

/-- The second vault is saved over the file of the first. -/
theorem not_one_per_file_saved : ¬ OnePerFile true
    (bindBoth ++ [.saveVaultAs homePath, .proceed 2, .proceed 2]) := by
  intro hone
  have hboth : ∃ s ∈ play (step true) fresh
      (bindBoth ++ [.saveVaultAs homePath, .proceed 2, .proceed 2]),
      ∃ v ∈ s.tables.vaults.rows, ∃ w ∈ s.tables.vaults.rows, v.kdbxPath = some homePath ∧
        w.kdbxPath = some homePath ∧ v ≠ w := by
    decide +kernel
  obtain ⟨s, hs, v, hv, w, hw, hvpath, hwpath, hne⟩ := hboth
  exact hne (hone.unique _ [] s v w homePath (List.append_nil _).symm hs hv hw hvpath hwpath)

/-! ## The choice and the watch -/

/-- Only calls of sessions are under way. -/
def Quiet (s : Tracking) : Prop :=
  ∀ i < s.started, ∀ call ∈ s.calls i, call.isSession = true

instance (s : Tracking) : Decidable s.Quiet := inferInstanceAs (Decidable
  (∀ i < s.started, ∀ call ∈ s.calls i, call.isSession = true))

/-- A file is watched when the active vault has one and the platform can watch. -/
def Watching (canWatch : Bool) (s : Tracking) : Prop :=
  s.watcher = watched canWatch (s.vaultId.bind s.pathOf)

/-- A restart keeps the active vault, and between the calls its file is watched. -/
structure KeepsChoice (canWatch : Bool) (actions : List TrackingAction) : Prop where
  restarts : ∀ before after s t, actions = before ++ .restart :: after →
    play (step canWatch) fresh before = some s → step canWatch s .restart = some t →
    t.vaultId = s.vaultId
  watches : ∀ before after s, actions = before ++ after →
    play (step canWatch) fresh before = some s → s.Quiet → s.Watching canWatch

/-- What a session finds that is about to adopt a row, or to make its vault the active one. -/
def SteadyCall (canWatch : Bool) (s : Tracking) : TrackingCall → Prop
  | .adoptVault vault => s.Quiet ∧ s.tables.getVault vault.id = none
  | .adopted vaultId | .session (some vaultId) =>
    s.Quiet ∧ s.watcher = watched canWatch (s.pathOf vaultId)
  | _ => True

/-- The calls come one after the other, sessions apart. A session that makes a vault the active one
does so between calls, and finds what is watched to be the file of that vault; the row that it
adopts is still not there. The process stops only while a vault is tracked, or before there is
one. -/
def Steady (canWatch : Bool) (s : Tracking) : TrackingAction → Prop
  | .bindVault _ | .saveVaultAs _ | .stopTrackingVault | .readVault _ => s.Quiet
  | .proceed i | .completes i => ∀ call ∈ s.calls i, s.SteadyCall canWatch call
  | .restart => s.vaultId = none → s.tables.vaults.rows = []
  | _ => True

instance (canWatch : Bool) (s : Tracking) : DecidablePred (s.SteadyCall canWatch)
  | .adoptVault _ => instDecidableAnd
  | .adopted _ => instDecidableAnd
  | .session (some _) => instDecidableAnd
  | .session none | .bindKnown .. | .bindUnknown _ | .importing .. | .imported ..
  | .startWatching .. | .recordFileNow | .recordLocalChange .. | .commitHeadMove _
  | .saveVaultAs .. | .bindVaultToFile .. | .stopTrackingVault => isTrue trivial

instance (canWatch : Bool) (s : Tracking) : DecidablePred (s.Steady canWatch)
  | .bindVault _ | .saveVaultAs _ | .stopTrackingVault | .readVault _ =>
    inferInstanceAs (Decidable s.Quiet)
  | .proceed i | .completes i =>
    inferInstanceAs (Decidable (∀ call ∈ s.calls i, s.SteadyCall canWatch call))
  | .restart => inferInstanceAs (Decidable (s.vaultId = none → s.tables.vaults.rows = []))
  | .importVault .. | .moveHead .. | .runSession | .vaultSummary .. | .fails _ => isTrue trivial

/-- What a call relies on. -/
def Facts (s : Tracking) : TrackingCall → Prop
  | .bindKnown vaultId path | .imported vaultId path => s.pathOf vaultId = some path
  | .importing row path => row.kdbxPath = some path ∧ s.pathOf row.id = some path
  | .startWatching path _ => s.vaultId.bind s.pathOf = some path
  | .commitHeadMove row => s.pathOf row.id = row.kdbxPath
  | .saveVaultAs vaultId _ => s.vaultId = some vaultId
  | .bindVaultToFile row _ => s.vaultId = some row.id
  | .session (some vaultId) | .adopted vaultId => s.tables.vaults.has vaultId = true
  | _ => True

/-- The choice is stored, and what is watched agrees with it unless a call is about to watch. -/
structure InOrder (canWatch : Bool) (s : Tracking) : Prop where
  chosen : s.tables.setting activeVaultKey = s.vaultId.map (·.value)
  active : ∀ vaultId ∈ s.vaultId, s.tables.vaults.has vaultId = true
  one : ∀ i j call call', s.calls i = some call → s.calls j = some call' →
    call.isSession = false → call'.isSession = false → i = j
  facts : ∀ i call, s.calls i = some call → s.Facts call
  watches : (∀ i path known, s.calls i ≠ some (.startWatching path known)) → s.Watching canWatch
  bound : ∀ i call, s.calls i = some call → i < s.started

theorem facts_same {call : TrackingCall} (hvaults : t.tables.vaults = s.tables.vaults)
    (hactive : t.vaultId = s.vaultId) (h : s.Facts call) : t.Facts call := by
  have hpath : t.pathOf = s.pathOf := by
    funext vaultId
    simp only [pathOf, Tables.getVault, hvaults]
  unfold Facts at h ⊢
  simp only [hpath, hactive, hvaults]
  exact h

/-- What a session relies on stays as rows are added. -/
theorem facts_session {call : TrackingCall} (hsession : call.isSession = true)
    (hgrows : ∀ vaultId, s.tables.vaults.has vaultId = true → t.tables.vaults.has vaultId = true)
    (h : s.Facts call) : t.Facts call := by
  cases call
  case session vaultId =>
    cases vaultId with
    | none => trivial
    | some vaultId => exact hgrows vaultId h
  case adopted vaultId => exact hgrows vaultId h
  case adoptVault => trivial
  all_goals cases hsession

theorem calls_update {i j : Nat} {next : Option TrackingCall} {call : TrackingCall}
    (hcalls : t.calls = Function.update s.calls i next) (h : t.calls j = some call) :
    (j = i ∧ next = some call) ∨ (j ≠ i ∧ s.calls j = some call) := by
  rw [hcalls] at h
  by_cases hij : j = i
  · subst hij
    exact .inl ⟨rfl, by simpa using h⟩
  · exact .inr ⟨hij, by simpa [hij] using h⟩

/-- A call starts, ends or goes on, and nothing else changes. -/
theorem InOrder.call (hs : InOrder canWatch s) {i : Nat} {next : Option TrackingCall}
    (hcalls : t.calls = Function.update s.calls i next) (htables : t.tables = s.tables)
    (hactive : t.vaultId = s.vaultId) (hwatcher : t.watcher = s.watcher)
    (hstarted : i < t.started ∧ s.started ≤ t.started)
    (hold : ∀ path known, s.calls i ≠ some (.startWatching path known))
    (hone : ∀ call, next = some call → call.isSession = false →
      ∀ j call', j ≠ i → s.calls j = some call' → call'.isSession = true)
    (hnext : ∀ call, next = some call → s.Facts call) : InOrder canWatch t where
  chosen := by
    rw [htables, hactive]
    exact hs.chosen
  active := by
    rw [htables, hactive]
    exact hs.active
  one j k call call' hj hk hjs hks := by
    rcases calls_update hcalls hj with ⟨rfl, hj⟩ | ⟨hji, hj⟩ <;>
      rcases calls_update hcalls hk with ⟨rfl, hk⟩ | ⟨hki, hk⟩
    · rfl
    · cases (hone call hj hjs k call' hki hk).symm.trans hks
    · cases (hone call' hk hks j call hji hj).symm.trans hjs
    · exact hs.one j k call call' hj hk hjs hks
  facts j call hj := by
    refine facts_same (by rw [htables]) hactive ?_
    rcases calls_update hcalls hj with ⟨-, hj⟩ | ⟨-, hj⟩
    · exact hnext call hj
    · exact hs.facts j call hj
  watches hnone := by
    have hwatching : s.Watching canWatch := by
      apply hs.watches
      intro j path known hj
      by_cases hji : j = i
      · subst hji
        exact hold path known hj
      · refine hnone j path known ?_
        rw [hcalls, Function.update_of_ne hji]
        exact hj
    unfold Watching pathOf at hwatching ⊢
    rw [hwatcher, hactive, htables]
    exact hwatching
  bound j call hj := by
    rcases calls_update hcalls hj with ⟨rfl, -⟩ | ⟨-, hj⟩
    · exact hstarted.1
    · exact Nat.lt_of_lt_of_le (hs.bound j call hj) hstarted.2

/-- The one call that is no session's changes the rows, the choice or the watch. -/
theorem InOrder.act (hs : InOrder canWatch s) {i : Nat} {next : Option TrackingCall}
    (hcalls : t.calls = Function.update s.calls i next)
    (hothers : ∀ j call, j ≠ i → s.calls j = some call → call.isSession = true)
    (hgrows : ∀ vaultId, s.tables.vaults.has vaultId = true → t.tables.vaults.has vaultId = true)
    (hchosen : t.tables.setting activeVaultKey = t.vaultId.map (·.value))
    (hactive : ∀ vaultId ∈ t.vaultId, t.tables.vaults.has vaultId = true)
    (hstarted : i < s.started ∧ t.started = s.started)
    (hnext : ∀ call, next = some call → t.Facts call)
    (hwatching : (∀ path known, next ≠ some (.startWatching path known)) → t.Watching canWatch) :
    InOrder canWatch t where
  chosen := hchosen
  active := hactive
  one j k call call' hj hk hjs hks := by
    have hat : ∀ l call, t.calls l = some call → call.isSession = false → l = i := by
      intro l call hl hls
      rcases calls_update hcalls hl with ⟨rfl, -⟩ | ⟨hli, hl⟩
      · rfl
      · cases (hothers l call hli hl).symm.trans hls
    rw [hat j call hj hjs, hat k call' hk hks]
  facts j call hj := by
    rcases calls_update hcalls hj with ⟨-, hj⟩ | ⟨hji, hj⟩
    · exact hnext call hj
    · exact facts_session (hothers j call hji hj) hgrows (hs.facts j call hj)
  watches hnone := by
    refine hwatching fun path known hnew => hnone i path known ?_
    rw [hcalls, Function.update_self, hnew]
  bound j call hj := by
    rw [hstarted.2]
    rcases calls_update hcalls hj with ⟨rfl, -⟩ | ⟨-, hj⟩
    · exact hstarted.1
    · exact hs.bound j call hj

theorem pathOf_saveVault (row : Vault) (vaultId : VaultId) :
    (s.saveVault row).pathOf vaultId = if row.id = vaultId then row.kdbxPath
      else s.pathOf vaultId := by
  show ((s.tables.saveVault row).getVault vaultId).bind (·.kdbxPath) = _
  by_cases hid : row.id = vaultId
  · obtain ⟨saved, hsaved, hpath⟩ := getVault_saved row s.tables
    rw [if_pos hid, ← hid, hsaved, Option.bind_some, hpath]
  · rw [if_neg hid, getVault_saveVault, if_neg hid]
    rfl

theorem has_saveVault (row : Vault) (vaultId : VaultId)
    (h : s.tables.vaults.has vaultId = true) :
    (s.saveVault row).tables.vaults.has vaultId = true :=
  Table.has_upsert_of_has h

/-- The choice is stored. -/
theorem setting_setActiveVault (vaultId : Option VaultId) :
    (s.setActiveVault vaultId).tables.setting activeVaultKey = vaultId.map (·.value) := by
  cases vaultId with
  | none =>
    show (Table.find (Table.delete _ _) _).map _ = none
    rw [Table.find_delete, if_pos rfl]
    rfl
  | some vaultId =>
    show (Table.find (Table.upsert ..) _).map _ = some vaultId.value
    rw [Table.find_upsert, if_pos rfl]
    cases Table.find s.tables.settings activeVaultKey <;> rfl

/-- A row that is written keeps its path, or is new. -/
theorem Watching.save (h : s.Watching canWatch) {row : Vault}
    (hsame : ∀ vaultId ∈ s.vaultId, row.id = vaultId → s.pathOf vaultId = row.kdbxPath) :
    (s.saveVault row).Watching canWatch := by
  unfold Watching at h ⊢
  show s.watcher = _
  rw [h]
  show watched canWatch (s.vaultId.bind s.pathOf) =
    watched canWatch (s.vaultId.bind (s.saveVault row).pathOf)
  cases hactive : s.vaultId with
  | none => rfl
  | some vaultId =>
    rw [Option.bind_some, Option.bind_some, pathOf_saveVault]
    split
    · rename_i hid
      rw [hsame vaultId hactive hid]
    · rfl

theorem has_of_pathOf {vaultId : VaultId} {path : FilePath} (h : s.pathOf vaultId = some path) :
    s.tables.vaults.has vaultId = true := by
  obtain ⟨row, hrow, -⟩ := Option.bind_eq_some_iff.mp h
  exact Table.has_iff.mpr ⟨row, hrow⟩

/-- The other calls are sessions, beside a call that is none, or between the calls. -/
theorem InOrder.others (hs : InOrder canWatch s) {i : Nat} {call : TrackingCall}
    (hi : s.calls i = some call) (hcall : call.isSession = false) :
    ∀ j call', j ≠ i → s.calls j = some call' → call'.isSession = true := by
  intro j call' hji hj
  by_contra hnot
  exact hji (hs.one j i call' call hj hi (Bool.eq_false_iff.mpr hnot) hcall)

/-- Nothing is about to be watched, beside a call that does something else. -/
theorem InOrder.watching (hs : InOrder canWatch s) {i : Nat} {call : TrackingCall}
    (hi : s.calls i = some call) (hcall : call.isSession = false)
    (hnot : ∀ path known, call ≠ .startWatching path known) : s.Watching canWatch := by
  apply hs.watches
  intro j path known hj
  have hji : j = i := hs.one j i _ call hj hi rfl hcall
  subst hji
  cases hi.symm.trans hj
  exact hnot path known rfl

theorem Quiet.watching (h : s.Quiet) (hs : InOrder canWatch s) : s.Watching canWatch :=
  hs.watches fun i path known hi => by cases h i (hs.bound i _ hi) _ hi

theorem InOrder.beside (hs : InOrder canWatch s) (h : s.Quiet) {i : Nat} :
    ∀ j call, j ≠ i → s.calls j = some call → call.isSession = true :=
  fun j call _ hj => h j (hs.bound j call hj) call hj

theorem inOrder_start (hs : InOrder canWatch s) {call : TrackingCall}
    (hone : call.isSession = false → s.Quiet) (hfacts : s.Facts call) :
    InOrder canWatch (s.start call) := by
  have hnone : ∀ path known, s.calls s.started ≠ some (.startWatching path known) :=
    fun path known hj => Nat.lt_irrefl _ (hs.bound _ _ hj)
  refine hs.call rfl rfl rfl rfl ⟨Nat.lt_succ_self _, Nat.le_succ _⟩ hnone ?_ ?_
  · rintro _ ⟨⟩ hcall j call' - hj
    exact hone hcall j (hs.bound j call' hj) call' hj
  · rintro _ ⟨⟩
    exact hfacts

/-- The active vault changes, and so does what is watched, unless the call is about to watch. -/
theorem inOrder_setActiveVault (hs : InOrder canWatch s) {i : Nat} {next : Option TrackingCall}
    {vaultId : Option VaultId} (hcalls : t.calls = Function.update s.calls i next)
    (htables : t.tables = (s.setActiveVault vaultId).tables) (hactive : t.vaultId = vaultId)
    (hstarted : t.started = s.started)
    (hothers : ∀ j call, j ≠ i → s.calls j = some call → call.isSession = true)
    (hthere : ∀ v ∈ vaultId, s.tables.vaults.has v = true) (hi : i < s.started)
    (hnext : ∀ call, next = some call → t.Facts call)
    (hwatching : (∀ path known, next ≠ some (.startWatching path known)) →
      t.watcher = watched canWatch (vaultId.bind s.pathOf)) : InOrder canWatch t := by
  have hvaults : t.tables.vaults = s.tables.vaults := by
    rw [htables]
    cases vaultId <;> rfl
  have hpath : t.pathOf = s.pathOf := by
    funext v
    simp only [pathOf, Tables.getVault, hvaults]
  refine hs.act hcalls hothers ?_ ?_ ?_ ⟨hi, hstarted⟩ hnext ?_
  · intro v hv
    rw [hvaults]
    exact hv
  · rw [htables, hactive]
    exact setting_setActiveVault vaultId
  · intro v hv
    rw [hvaults]
    exact hthere v (hactive ▸ hv)
  · intro hnot
    unfold Watching
    rw [hpath, hactive]
    exact hwatching hnot

/-- The one call that is no session's writes a row. -/
theorem inOrder_saveVault (hs : InOrder canWatch s) {i : Nat} {next : Option TrackingCall}
    {row : Vault} (hothers : ∀ j call, j ≠ i → s.calls j = some call → call.isSession = true)
    (hi : i < s.started)
    (hnext : ∀ call, next = some call → ((s.saveVault row).set i next).Facts call)
    (hwatching : (∀ path known, next ≠ some (.startWatching path known)) →
      (s.saveVault row).Watching canWatch) :
    InOrder canWatch ((s.saveVault row).set i next) :=
  hs.act rfl hothers (fun v hv => has_saveVault row v hv) hs.chosen
    (fun v hv => has_saveVault row v (hs.active v hv)) ⟨hi, rfl⟩ hnext hwatching

theorem inOrder_proceed {i : Nat} {call : TrackingCall} (hs : InOrder canWatch s)
    (hi : s.calls i = some call) (hC : s.Steady canWatch (.proceed i))
    (h : s.proceed canWatch i call = some t) : InOrder canWatch t := by
  have hfacts := hs.facts i call hi
  have hbound := hs.bound i call hi
  have hsteady := hC call hi
  cases call <;> cases h
  case bindKnown vaultId path =>
    refine inOrder_setActiveVault hs rfl rfl rfl rfl (hs.others hi rfl) ?_ hbound ?_ fun hnot => ?_
    · rintro _ ⟨⟩
      exact has_of_pathOf hfacts
    · rintro _ ⟨⟩
      exact hfacts
    · exact absurd rfl (hnot path true)
  case imported vaultId path =>
    refine inOrder_setActiveVault hs rfl rfl rfl rfl (hs.others hi rfl) ?_ hbound ?_ fun hnot => ?_
    · rintro _ ⟨⟩
      exact has_of_pathOf hfacts
    · rintro _ ⟨⟩
      exact hfacts
    · exact absurd rfl (hnot path false)
  case startWatching path known =>
    refine hs.act rfl (hs.others hi rfl) (fun _ => id) hs.chosen hs.active ⟨hbound, rfl⟩ ?_ ?_
    · cases known <;> rintro _ ⟨⟩
      trivial
    · intro _
      show watched canWatch (some path) = watched canWatch (s.vaultId.bind s.pathOf)
      rw [hfacts]
  case recordFileNow =>
    refine hs.call rfl rfl rfl rfl ⟨hbound, Nat.le_refl _⟩ ?_ ?_ ?_
    · rw [hi]
      nofun
    · exact fun _ _ _ => hs.others hi rfl
    · intro next hnext
      obtain ⟨v, -, hnext⟩ := Option.bind_eq_some_iff.mp hnext
      obtain ⟨path, -, rfl⟩ := Option.map_eq_some_iff.mp hnext
      trivial
  case recordLocalChange vaultId path =>
    refine hs.call rfl rfl rfl rfl ⟨hbound, Nat.le_refl _⟩ ?_ ?_ ?_
    · rw [hi]
      nofun
    · exact fun _ _ _ => hs.others hi rfl
    · intro next hnext
      obtain ⟨row, hrow, rfl⟩ := Option.map_eq_some_iff.mp hnext
      show s.pathOf row.id = row.kdbxPath
      unfold pathOf
      rw [Table.key_of_find hrow, hrow]
      rfl
  case saveVaultAs vaultId path =>
    refine hs.call rfl rfl rfl rfl ⟨hbound, Nat.le_refl _⟩ ?_ ?_ ?_
    · rw [hi]
      nofun
    · exact fun _ _ _ => hs.others hi rfl
    · intro next hnext
      obtain ⟨row, hrow, rfl⟩ := Option.map_eq_some_iff.mp hnext
      show s.vaultId = some row.id
      rw [Table.key_of_find hrow]
      exact hfacts
  case bindVaultToFile row path =>
    refine inOrder_saveVault hs (hs.others hi rfl) hbound ?_ fun hnot => ?_
    · rintro _ ⟨⟩
      show s.vaultId.bind (s.saveVault { row with kdbxPath := some path }).pathOf = some path
      rw [hfacts, Option.bind_some, pathOf_saveVault, if_pos rfl]
    · exact absurd rfl (hnot path false)
  case stopTrackingVault =>
    refine inOrder_setActiveVault hs rfl rfl rfl rfl (hs.others hi rfl) nofun hbound nofun fun _ => ?_
    cases canWatch <;> rfl
  case adoptVault vault =>
    obtain ⟨hquiet, hnone⟩ := hsteady
    refine inOrder_saveVault hs (hs.beside hquiet) hbound ?_ fun _ => ?_
    · rintro _ ⟨⟩
      obtain ⟨saved, hsaved, -⟩ := getVault_saved vault s.tables
      exact Table.has_iff.mpr ⟨saved, hsaved⟩
    · refine (hquiet.watching hs).save fun vaultId hactive hid => ?_
      obtain ⟨row, hrow⟩ := Table.has_iff.mp (hs.active vaultId hactive)
      rw [← hid] at hrow
      cases hrow.symm.trans hnone
  case adopted vaultId =>
    obtain ⟨hquiet, hwatched⟩ := hsteady
    refine inOrder_setActiveVault hs rfl rfl rfl rfl (hs.beside hquiet) ?_
      hbound ?_ ?_
    · rintro _ ⟨⟩
      exact hfacts
    · rintro _ ⟨⟩
      exact hfacts
    · exact fun _ => hwatched

theorem storedActive_chosen {tables : Tables} {vaultId : VaultId} {row : Vault}
    (hchosen : tables.setting activeVaultKey = some vaultId.value)
    (hrow : tables.getVault vaultId = some row) : storedActive tables = some row := by
  have hfind : ∀ v ∈ tables.vaultsInOrder,
      some v.id.value = tables.setting activeVaultKey → v = row := by
    intro v hv hid
    rw [hchosen, Option.some.injEq] at hid
    have hsame : v.id = vaultId := by
      cases hv' : v.id
      cases vaultId
      rw [hv'] at hid
      exact congrArg VaultId.mk hid
    have hfound := Table.find_of_mem (mem_vaultsInOrder.mp hv)
    rw [hsame] at hfound
    exact Option.some.inj (hfound.symm.trans hrow)
  unfold storedActive
  cases h : tables.vaultsInOrder.find? fun v => some v.id.value = tables.setting activeVaultKey with
  | none =>
    have hnone := List.find?_eq_none.mp h row (mem_vaultsInOrder.mpr (Table.mem_of_find hrow))
    rw [hchosen, Table.key_of_find hrow] at hnone
    exact absurd (decide_eq_true rfl) hnone
  | some v =>
    have hid : some v.id.value = tables.setting activeVaultKey := by simpa using List.find?_some h
    rw [hfind v (List.mem_of_find?_eq_some h) hid]
    rfl

/-- What was chosen is what a restart opens. -/
theorem restart_eq (hs : InOrder canWatch s) (hC : s.Steady canWatch .restart)
    (h : step canWatch s .restart = some t) :
    t.vaultId = s.vaultId ∧ t.watcher = watched canWatch (s.vaultId.bind s.pathOf) ∧
      t.calls = (fun _ => none) ∧ t.tables.vaults = s.tables.vaults ∧
      t.tables.setting activeVaultKey = s.vaultId.map (·.value) := by
  simp only [step] at h
  cases hactive : s.vaultId with
  | none =>
    have hnone : storedActive s.tables = none := by
      unfold storedActive Tables.vaultsInOrder
      rw [hC hactive]
      rfl
    rw [hnone] at h
    cases h
    refine ⟨rfl, ?_, rfl, rfl, ?_⟩
    · cases canWatch <;> rfl
    · exact hs.chosen.trans (by rw [hactive])
  | some vaultId =>
    obtain ⟨row, hrow⟩ := Table.has_iff.mp (hs.active vaultId hactive)
    have hchosen := hs.chosen
    rw [hactive] at hchosen
    have hrowId : row.id = vaultId := Table.key_of_find hrow
    rw [storedActive_chosen hchosen hrow] at h
    cases h
    refine ⟨congrArg some hrowId, ?_, rfl, rfl, ?_⟩
    · show watched canWatch row.kdbxPath = watched canWatch (s.pathOf vaultId)
      unfold pathOf Tables.getVault
      rw [hrow]
      rfl
    · rw [← hrowId]
      exact setting_setActiveVault (some row.id)

theorem InOrder.step {action : TrackingAction} (hs : InOrder canWatch s)
    (hC : s.Steady canWatch action) (h : Tracking.step canWatch s action = some t) :
    InOrder canWatch t := by
  cases action <;> simp only [Tracking.step] at h
  case bindVault path =>
    split at h
    case h_1 known hknown =>
      cases h
      refine inOrder_start hs (fun _ => hC) ?_
      have hrow : s.tables.getVault known.id = some known :=
        Table.find_of_mem (mem_vaultsInOrder.mp (List.mem_of_find?_eq_some hknown))
      show s.pathOf known.id = some path
      unfold pathOf
      rw [hrow, Option.bind_some]
      simpa using List.find?_some hknown
    case h_2 =>
      cases h
      exact inOrder_start hs (fun _ => hC) trivial
  case importVault i vault =>
    split at h
    case h_1 path hi =>
      split at h <;> cases h
      rename_i hguard
      refine inOrder_saveVault hs (hs.others hi rfl) (hs.bound i _ hi) ?_ fun _ => ?_
      · rintro _ ⟨⟩
        exact ⟨hguard.2, (pathOf_saveVault vault vault.id).trans ((if_pos rfl).trans hguard.2)⟩
      · refine (hs.watching hi rfl (by simp)).save fun vaultId hactive hid => ?_
        obtain ⟨row, hrow⟩ := Table.has_iff.mp (hs.active vaultId hactive)
        rw [← hid] at hrow
        cases hrow.symm.trans hguard.1
    case h_2 => cases h
  case moveHead i revisionId =>
    split at h
    case h_1 row path hi =>
      cases h
      have hfacts := hs.facts i _ hi
      refine inOrder_saveVault hs (hs.others hi rfl) (hs.bound i _ hi) ?_ fun _ => ?_
      · rintro _ ⟨⟩
        exact (pathOf_saveVault { row with headRevisionId := some revisionId } row.id).trans
          ((if_pos rfl).trans hfacts.1)
      · refine (hs.watching hi rfl (by simp)).save ?_
        rintro _ - rfl
        exact hfacts.2.trans hfacts.1.symm
    case h_2 row hi =>
      cases h
      refine inOrder_saveVault hs (hs.others hi rfl) (hs.bound i _ hi) (by simp) fun _ => ?_
      refine (hs.watching hi rfl (by simp)).save ?_
      rintro _ - rfl
      exact hs.facts i _ hi
    case h_3 => cases h
  case saveVaultAs path =>
    split at h
    case h_1 =>
      cases h
      exact hs
    case h_2 vaultId hactive =>
      split at h <;> cases h
      · exact hs
      · exact inOrder_start hs (fun _ => hC) hactive
  case stopTrackingVault =>
    cases h
    exact inOrder_start hs (fun _ => hC) trivial
  case readVault vaultId =>
    obtain ⟨row, hrow, rfl⟩ := Option.map_eq_some_iff.mp h
    refine inOrder_start hs (fun _ => hC) ?_
    show s.pathOf row.id = row.kdbxPath
    unfold pathOf
    rw [Table.key_of_find hrow, hrow]
    rfl
  case runSession =>
    cases h
    refine inOrder_start hs (fun h => by cases h) ?_
    cases hactive : s.vaultId with
    | none => trivial
    | some vaultId => exact hs.active vaultId hactive
  case vaultSummary i vault =>
    split at h
    case h_1 hi =>
      have hcall : ∀ next : TrackingCall, s.Facts next → next.isSession = true →
          InOrder canWatch (s.set i (some next)) := by
        intro next hnext hsession
        refine hs.call rfl rfl rfl rfl ⟨hs.bound i _ hi, Nat.le_refl _⟩ ?_ ?_ ?_
        · rw [hi]
          simp
        · rintro _ ⟨⟩ hnot
          cases hsession.symm.trans hnot
        · rintro _ ⟨⟩
          exact hnext
      split at h
      · split at h
        case h_1 row hrow =>
          cases h
          exact hcall _ (Table.has_iff.mpr ⟨row, hrow⟩) rfl
        case h_2 =>
          cases h
          exact hcall _ trivial rfl
      · cases h
    case h_2 => cases h
  case completes i =>
    split at h
    case h_1 vaultId hi =>
      cases h
      obtain ⟨hquiet, hwatched⟩ := hC _ hi
      refine inOrder_setActiveVault hs rfl rfl rfl rfl (hs.beside hquiet) ?_ (hs.bound i _ hi)
        (by simp) fun _ => hwatched
      rintro _ ⟨⟩
      exact hs.facts i _ hi
    case h_2 => cases h
  case proceed i =>
    obtain ⟨call, hi, hgo⟩ := Option.bind_eq_some_iff.mp h
    exact inOrder_proceed hs hi hC hgo
  case fails i =>
    split at h
    case h_1 call hi =>
      split at h <;> cases h
      rename_i hfail
      refine hs.call rfl rfl rfl rfl ⟨hs.bound i _ hi, Nat.le_refl _⟩ ?_ (by simp) (by simp)
      rw [hi]
      rintro path known ⟨⟩
      cases hfail
    case h_2 => cases h
  case restart =>
    obtain ⟨hactive, hwatcher, hcalls, hvaults, hsetting⟩ := restart_eq hs hC h
    have hpath : t.pathOf = s.pathOf := by
      funext v
      simp only [pathOf, Tables.getVault, hvaults]
    refine ⟨by rw [hsetting, hactive], ?_, ?_, ?_, fun _ => ?_, ?_⟩
    · rw [hactive, hvaults]
      exact hs.active
    · rw [hcalls]
      rintro i j call call' ⟨⟩
    · rw [hcalls]
      rintro i call ⟨⟩
    · unfold Watching
      rw [hwatcher, hactive, hpath]
    · rw [hcalls]
      simp

theorem inOrder_fresh (canWatch : Bool) : InOrder canWatch fresh := by
  refine ⟨rfl, nofun, ?_, ?_, fun _ => ?_, nofun⟩
  · rintro i j call call' ⟨⟩
  · rintro i call ⟨⟩
  · cases canWatch <;> rfl

/-- In every run of steady actions, a restart keeps the choice, and between the calls the file of
the active vault is watched. -/
theorem keeps_choice (canWatch : Bool) (actions : List TrackingAction) (t : Tracking)
    (h : play (step canWatch) fresh actions = some t)
    (hmeets : Meets (step canWatch) (Steady canWatch) fresh actions) :
    KeepsChoice canWatch actions := by
  have hreached : ∀ before after s, actions = before ++ after →
      play (step canWatch) fresh before = some s → InOrder canWatch s := by
    intro before after s hsplit hs
    have hbefore : Meets (step canWatch) (Steady canWatch) fresh before :=
      (hsplit ▸ hmeets).of_append
    exact hbefore.keeps (fun _ _ _ hs hC hstep => hs.step hC hstep) hs (inOrder_fresh canWatch)
  refine ⟨fun before after s u hsplit hs hstep => ?_, fun before after s hsplit hs hquiet => ?_⟩
  · have hC := (meets_iff h).mp hmeets before .restart after s hsplit hs
    exact (restart_eq (hreached before _ s hsplit hs) hC hstep).1
  · exact hquiet.watching (hreached before after s hsplit hs)

/-- Two files are bound, and the app is started again. -/
theorem keeps_choice_bound : KeepsChoice true (bindBoth ++ [.restart]) := by
  have hplays : (play (step true) fresh (bindBoth ++ [.restart])).isSome := by decide +kernel
  obtain ⟨t, ht⟩ := Option.isSome_iff_exists.mp hplays
  exact keeps_choice true _ t ht (by decide +kernel)

/-- Nothing is tracked any more; the app is started again, and tracks the newest vault. -/
theorem not_keeps_choice_stopped : ¬ KeepsChoice true
    (bindBoth ++ [.stopTrackingVault, .proceed 2, .restart]) := by
  intro hkeeps
  have hboth : ∃ s ∈ play (step true) fresh (bindBoth ++ [.stopTrackingVault, .proceed 2]),
      ∃ t ∈ step true s .restart, t.vaultId ≠ s.vaultId := by
    decide +kernel
  obtain ⟨s, hs, t, ht, hne⟩ := hboth
  exact hne (hkeeps.restarts _ [] s t rfl hs ht)

end Tracking

end PassVault
