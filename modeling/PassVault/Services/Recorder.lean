import PassVault.Services.Tracking
import PassVault.Storage.VaultFileWatcher

/-!
# Which vault a file is recorded for

The watches of `VaultServices` (`startWatching` in `packages/services/src/vaultServices.ts`) beside
the calls that decide which vault is tracked. A watch that is stopped ends no delivery that is under
way, and a run that is pending arms its timer again. A delivery asks for the active vault when it
has read the file.
-/

namespace PassVault

open Machine

/-- A watcher of `files.watch`, and whether it was stopped. -/
structure Watch where
  path : FilePath
  stopped : Bool
  watcher : VaultFileWatcher Unit
deriving DecidableEq, Repr

namespace Watch

def new (path : FilePath) : Watch := ⟨path, false, .started⟩

/-- `stop`: events are reported no more, and the timer is cleared. -/
def stop (w : Watch) : Watch :=
  { w with stopped := true, watcher := { w.watcher with timer := false } }

/-- It can still deliver. -/
def live (w : Watch) : Bool := !w.stopped || w.watcher.timer || w.watcher.running.isSome

/-- `VaultServices` never polls. -/
def takes (w : Watch) : WatcherAction Unit → Bool
  | .event => !w.stopped
  | .pollNow => false
  | _ => true

end Watch

structure Recorder where
  tracking : Tracking
  watches : List Watch
  /-- `this.watcher`. -/
  current : Option Nat

inductive RecorderAction where
  | track (action : TrackingAction)
  | watch (i : Nat) (action : WatcherAction Unit)
deriving DecidableEq, Repr

namespace Tracking

/-- The vault that an action makes the active one. -/
def activates (s : Tracking) : TrackingAction → Option VaultId
  | .proceed i =>
    match s.calls i with
    | some (.bindKnown vaultId _) | some (.imported vaultId _) | some (.adopted vaultId) =>
      some vaultId
    | _ => none
  | .completes i =>
    match s.calls i with
    | some (.session vaultId) => vaultId
    | _ => none
  | _ => none

/-- The file that an action begins to watch. -/
def watches (canWatch : Bool) (s : Tracking) : TrackingAction → Option FilePath
  | .proceed i =>
    match s.calls i with
    | some (.startWatching path _) => watched canWatch (some path)
    | _ => none
  | _ => none

/-- The vault that a call records, and the file that it has read for it. -/
def reading (s : Tracking) (i : Nat) : Option (VaultId × FilePath) :=
  match s.calls i with
  | some (.recordLocalChange vaultId path) => some (vaultId, path)
  | _ => none

def Reads (s : Tracking) (i : Nat) (vaultId : VaultId) (path : FilePath) : Prop :=
  s.calls i = some (.recordLocalChange vaultId path)

end Tracking

namespace Recorder

def fresh : Recorder := ⟨.fresh, [], none⟩

/-- `this.watcher?.stop()`. -/
def stopWatcher (s : Recorder) : Recorder :=
  { s with watches := s.watches.mapIdx fun i w => if s.current = some i then w.stop else w }

/-- `this.watcher = this.files.watch?.(…)`. -/
def startWatcher (canWatch : Bool) (path : FilePath) (s : Recorder) : Recorder :=
  if canWatch then
    { s with watches := s.watches ++ [.new path], current := some s.watches.length }
  else { s with current := none }

/-- What a call does with the watches as it goes on. -/
def proceed (canWatch : Bool) (s : Recorder) : TrackingCall → Recorder
  | .bindKnown .. | .imported .. | .bindVaultToFile .. => s.stopWatcher
  | .startWatching path _ => s.startWatcher canWatch path
  | .stopTrackingVault => { s with current := none }
  | _ => s

/-- What an action does with the watches. Those of a process that stops are gone. -/
def follow (canWatch : Bool) (s : Recorder) (t : Tracking) : TrackingAction → Recorder
  | .proceed i => (s.tracking.calls i).elim s (s.proceed canWatch)
  | .stopTrackingVault => s.stopWatcher
  | .restart => ⟨t, t.watcher.toList.map .new, t.watcher.map fun _ => 0⟩
  | _ => s

def step (canWatch : Bool) (s : Recorder) : RecorderAction → Option Recorder
  | .track action =>
    (Tracking.step canWatch s.tracking action).map fun t =>
      { s.follow canWatch t action with tracking := t }
  | .watch i action =>
    (s.watches[i]?).bind fun w =>
      if w.takes action then
        (w.watcher.step action).map fun watcher =>
          { s with watches := s.watches.set i { w with watcher } }
      else none

/-- The call of `recordLocalChange` that an action makes: the vault, and the file that was read. -/
def records (s : Recorder) : RecorderAction → Option (VaultId × FilePath)
  | .track (.proceed i) => s.tracking.reading i
  | .watch i (.readEnds (some _)) =>
    (s.watches[i]?).bind fun w => s.tracking.vaultId.map (·, w.path)
  | _ => none

/-- What can still be recorded is of the file of its vault. -/
structure Apart (s : Recorder) : Prop where
  watches : ∀ w ∈ s.watches, w.live = true → ∀ vaultId ∈ s.tracking.vaultId,
    s.tracking.pathOf vaultId = some w.path
  reads : ∀ i vaultId path, s.tracking.Reads i vaultId path →
    s.tracking.pathOf vaultId = some path

/-- Nothing is recorded for a vault but what was read from its file, and nothing else can be. -/
structure KeepsApart (canWatch : Bool) (actions : List RecorderAction) : Prop where
  records : ∀ before action after s t vaultId path, actions = before ++ action :: after →
    play (step canWatch) fresh before = some s → step canWatch s action = some t →
    s.records action = some (vaultId, path) → s.tracking.pathOf vaultId = some path
  apart : ∀ before after s, actions = before ++ after →
    play (step canWatch) fresh before = some s → s.Apart

/-- A row is written, a vault becomes the active one and a watch begins only as fits what can still
be recorded. -/
structure Fits (canWatch : Bool) (s : Recorder) (action : TrackingAction) : Prop where
  row : ∀ row ∈ s.tracking.writes action, s.tracking.vaultId = some row.id →
    ∀ w ∈ (s.follow canWatch s.tracking action).watches, w.live = true → row.kdbxPath = some w.path
  reads : ∀ row ∈ s.tracking.writes action, ∀ i < s.tracking.started,
    ∀ read ∈ s.tracking.reading i, read.1 = row.id → row.kdbxPath = some read.2
  active : ∀ vaultId ∈ s.tracking.activates action,
    ∀ w ∈ (s.follow canWatch s.tracking action).watches, w.live = true →
      s.tracking.pathOf vaultId = some w.path
  watch : ∀ path ∈ s.tracking.watches canWatch action, ∀ vaultId ∈ s.tracking.vaultId,
    s.tracking.pathOf vaultId = some path

instance (canWatch : Bool) (s : Recorder) : DecidablePred (Fits canWatch s) := fun action =>
  decidable_of_iff
    ((∀ row ∈ s.tracking.writes action, s.tracking.vaultId = some row.id →
        ∀ w ∈ (s.follow canWatch s.tracking action).watches, w.live = true →
          row.kdbxPath = some w.path) ∧
      (∀ row ∈ s.tracking.writes action, ∀ i < s.tracking.started,
        ∀ read ∈ s.tracking.reading i, read.1 = row.id → row.kdbxPath = some read.2) ∧
      (∀ vaultId ∈ s.tracking.activates action,
        ∀ w ∈ (s.follow canWatch s.tracking action).watches, w.live = true →
          s.tracking.pathOf vaultId = some w.path) ∧
      ∀ path ∈ s.tracking.watches canWatch action, ∀ vaultId ∈ s.tracking.vaultId,
        s.tracking.pathOf vaultId = some path)
    ⟨fun ⟨hrow, hreads, hactive, hwatch⟩ => ⟨hrow, hreads, hactive, hwatch⟩,
      fun h => ⟨h.row, h.reads, h.active, h.watch⟩⟩

def Suits (canWatch : Bool) (s : Recorder) : RecorderAction → Prop
  | .track action => Fits canWatch s action
  | .watch .. => True

instance (canWatch : Bool) (s : Recorder) : DecidablePred (Suits canWatch s)
  | .track action => inferInstanceAs (Decidable (Fits canWatch s action))
  | .watch .. => isTrue trivial

end Recorder

namespace Tracking

variable {canWatch : Bool} {s t : Tracking} {action : TrackingAction}

theorem reading_eq_some {i : Nat} {read : VaultId × FilePath} :
    s.reading i = some read ↔ s.Reads i read.1 read.2 := by
  unfold reading Reads
  split
  · rename_i vaultId path hi
    rw [hi]
    simp [Prod.ext_iff]
  · rename_i hi
    exact ⟨nofun, fun h => absurd h (hi _ _)⟩

/-- Calls are counted as they start. -/
def Counted (s : Tracking) : Prop := ∀ i call, s.calls i = some call → i < s.started

/-- What an action that is no restart does besides writing a row. -/
structure Follows (canWatch : Bool) (s t : Tracking) (action : TrackingAction) : Prop where
  active : t.vaultId = (s.activates action).or s.vaultId ∨
    (t.vaultId = none ∧ s.activates action = none ∧ s.writes action = none ∧
      s.watches canWatch action = none)
  reads : ∀ i vaultId path, t.Reads i vaultId path →
    s.Reads i vaultId path ∨ (s.writes action = none ∧ s.pathOf vaultId = some path)
  stays : ∀ row ∈ s.writes action, s.activates action = none ∧
    ∀ i vaultId path, s.Reads i vaultId path → t.Reads i vaultId path
  counted : s.Counted → t.Counted

/-- One call starts, goes on or ends. -/
theorem Follows.call {i : Nat} {next : Option TrackingCall}
    (hcalls : t.calls = Function.update s.calls i next)
    (hactive : t.vaultId = (s.activates action).or s.vaultId ∨
      (t.vaultId = none ∧ s.activates action = none ∧ s.writes action = none ∧
        s.watches canWatch action = none))
    (hnext : ∀ vaultId path, next = some (.recordLocalChange vaultId path) →
      s.writes action = none ∧ s.pathOf vaultId = some path)
    (hold : ∀ row ∈ s.writes action, s.activates action = none ∧
      ∀ vaultId path, ¬ s.Reads i vaultId path)
    (hcounted : s.Counted → i < t.started ∧ s.started ≤ t.started) :
    Follows canWatch s t action where
  active := hactive
  reads j vaultId path h := by
    rcases calls_update hcalls h with ⟨-, hnew⟩ | ⟨-, hj⟩
    · exact .inr (hnext vaultId path hnew)
    · exact .inl hj
  stays row hrow := by
    obtain ⟨hactivates, hnot⟩ := hold row hrow
    refine ⟨hactivates, fun j vaultId path hj => ?_⟩
    have hne : j ≠ i := by
      rintro rfl
      exact hnot vaultId path hj
    rw [Reads, hcalls, Function.update_of_ne hne]
    exact hj
  counted hs j call hj := by
    rcases calls_update hcalls hj with ⟨rfl, -⟩ | ⟨-, hj⟩
    · exact (hcounted hs).1
    · exact Nat.lt_of_lt_of_le (hs j call hj) (hcounted hs).2

/-- A call goes on. -/
theorem follows_proceed {i : Nat} {call : TrackingCall} (hi : s.calls i = some call)
    (h : s.proceed canWatch i call = some t) : Follows canWatch s t (.proceed i) := by
  have hcounted (hstarted : t.started = s.started) (hs : s.Counted) :
      i < t.started ∧ s.started ≤ t.started := by
    rw [hstarted]
    exact ⟨hs i call hi, Nat.le_refl _⟩
  have hcall (next : Option TrackingCall) (hcalls : t.calls = Function.update s.calls i next)
      (hstarted : t.started = s.started)
      (hactive : t.vaultId = (s.activates (.proceed i)).or s.vaultId ∨
        (t.vaultId = none ∧ s.activates (.proceed i) = none ∧ s.writes (.proceed i) = none ∧
          s.watches canWatch (.proceed i) = none))
      (hnext : ∀ vaultId path, next ≠ some (.recordLocalChange vaultId path))
      (hactivates : ∀ row ∈ s.writes (.proceed i), s.activates (.proceed i) = none)
      (hcall : ∀ vaultId path, s.writes (.proceed i) ≠ none →
        call ≠ .recordLocalChange vaultId path) : Follows canWatch s t (.proceed i) := by
    refine .call hcalls hactive (fun vaultId path heq => absurd heq (hnext vaultId path))
      (fun row hrow => ⟨hactivates row hrow, fun vaultId path hreads => ?_⟩) (hcounted hstarted)
    have hsome : s.writes (.proceed i) ≠ none := by
      rw [Option.mem_def.mp hrow]
      simp
    exact hcall vaultId path hsome (Option.some.inj (hi.symm.trans hreads))
  cases call
  case recordFileNow =>
    cases h
    refine .call rfl (.inl ?_) (fun vaultId path hnext => ?_) (fun row hrow => ?_) (hcounted rfl)
    · simp only [activates, hi]
      rfl
    · refine ⟨by simp only [writes, hi], ?_⟩
      obtain ⟨v, -, hnext⟩ := Option.bind_eq_some_iff.mp hnext
      obtain ⟨p, hp, hnext⟩ := Option.map_eq_some_iff.mp hnext
      cases hnext
      exact hp
    · simp only [writes, hi] at hrow
      cases hrow
  case stopTrackingVault =>
    cases h
    refine hcall none rfl rfl (.inr ?_) (by simp) ?_ (by simp)
    · simp only [activates, writes, watches, hi]
      exact ⟨rfl, trivial, trivial, trivial⟩
    · simp [writes, activates, hi]
  case recordLocalChange vaultId path =>
    cases h
    refine hcall _ rfl rfl (.inl ?_) (fun v p hnext => ?_) ?_ fun _ _ hwrites => ?_
    · simp only [activates, hi]
      rfl
    · obtain ⟨row, -, hnext⟩ := Option.map_eq_some_iff.mp hnext
      cases hnext
    · simp [writes, hi]
    · simp [writes, hi] at hwrites
  case saveVaultAs vaultId path =>
    cases h
    refine hcall _ rfl rfl (.inl ?_) (fun v p hnext => ?_) ?_ (by simp)
    · simp only [activates, hi]
      rfl
    · obtain ⟨row, -, hnext⟩ := Option.map_eq_some_iff.mp hnext
      cases hnext
    · simp [writes, hi]
  case startWatching path known =>
    cases h
    refine hcall _ rfl rfl (.inl ?_) (fun v p hnext => ?_) ?_ (by simp)
    · simp only [activates, hi]
      rfl
    · cases known <;> cases hnext
    · simp [writes, hi]
  case bindKnown | imported | bindVaultToFile | adoptVault | adopted =>
    cases h
    refine hcall _ rfl rfl (.inl ?_) (by simp) ?_ (by simp)
    · simp only [activates, hi]
      rfl
    · simp [writes, activates, hi]
  all_goals cases h

theorem follows_step (h : step canWatch s action = some t) (hrestart : action ≠ .restart) :
    Follows canWatch s t action := by
  have hstart : s.Counted → s.started < s.started + 1 ∧ s.started ≤ s.started + 1 :=
    fun _ => ⟨Nat.lt_succ_self _, Nat.le_succ _⟩
  cases action <;> simp only [step] at h
  case bindVault path =>
    split at h <;> cases h <;> exact .call rfl (.inl rfl) (by simp) (by rintro _ ⟨⟩) hstart
  case importVault i vault =>
    split at h
    · rename_i hi
      split at h <;> cases h
      refine .call rfl (.inl rfl) (by simp) (fun _ _ => ⟨rfl, fun vaultId path hreads => ?_⟩)
        fun hs => ⟨hs i _ hi, Nat.le_refl _⟩
      cases hi.symm.trans hreads
    · cases h
  case moveHead i revisionId =>
    split at h <;> rename_i hi <;> cases h
    · refine .call rfl (.inl rfl) (by simp) (fun _ _ => ⟨rfl, fun vaultId path hreads => ?_⟩)
        fun hs => ⟨hs i _ hi, Nat.le_refl _⟩
      cases hi.symm.trans hreads
    · refine .call rfl (.inl rfl) (by simp) (fun _ _ => ⟨rfl, fun vaultId path hreads => ?_⟩)
        fun hs => ⟨hs i _ hi, Nat.le_refl _⟩
      cases hi.symm.trans hreads
  case saveVaultAs path =>
    have hsame : Follows canWatch s s (.saveVaultAs path) := ⟨.inl rfl, fun _ _ _ => .inl,
        by rintro _ ⟨⟩, id⟩
    split at h
    · cases h
      exact hsame
    · split at h <;> cases h
      · exact hsame
      · exact .call rfl (.inl rfl) (by simp) (by rintro _ ⟨⟩) hstart
  case readVault vaultId =>
    obtain ⟨row, -, rfl⟩ := Option.map_eq_some_iff.mp h
    exact .call rfl (.inl rfl) (by simp) (by rintro _ ⟨⟩) hstart
  case vaultSummary i vault =>
    split at h
    · rename_i hi
      split at h
      · split at h <;> cases h <;>
          exact .call rfl (.inl rfl) (by simp) (by rintro _ ⟨⟩) fun hs => ⟨hs i _ hi, Nat.le_refl _⟩
      · cases h
    · cases h
  case completes i =>
    split at h
    · rename_i hi
      cases h
      refine .call rfl (.inl ?_) (by simp) (by rintro _ ⟨⟩) fun hs => ⟨hs i _ hi, Nat.le_refl _⟩
      simp only [activates, hi]
      rfl
    · cases h
  case fails i =>
    split at h
    · rename_i hi
      split at h <;> cases h
      exact .call rfl (.inl rfl) (by simp) (by rintro _ ⟨⟩) fun hs => ⟨hs i _ hi, Nat.le_refl _⟩
    · cases h
  case proceed i =>
    obtain ⟨call, hi, hgo⟩ := Option.bind_eq_some_iff.mp h
    exact follows_proceed hi hgo
  case restart => exact absurd rfl hrestart
  all_goals
    cases h
    exact .call rfl (.inl rfl) (by simp) (by rintro _ ⟨⟩) hstart

/-- Where a watch begins, nothing else happens. -/
theorem only_watches {path : FilePath} (h : s.watches canWatch action = some path) :
    s.activates action = none ∧ s.writes action = none := by
  cases action with
  | proceed i =>
    simp only [watches] at h
    split at h
    · rename_i hi
      simp only [activates, writes, hi]
      exact ⟨trivial, trivial⟩
    · cases h
  | _ => cases h

/-- The file of a vault changes as its row is written. -/
theorem pathOf_step (h : step canWatch s action = some t) (vaultId : VaultId) :
    t.pathOf vaultId = match s.writes action with
      | some row => if row.id = vaultId then row.kdbxPath else s.pathOf vaultId
      | none => s.pathOf vaultId := by
  rcases vaults_step h with ⟨row, hwrites, hvaults, -⟩ | ⟨hwrites, hvaults, -⟩
  · rw [hwrites]
    have hpath : t.pathOf vaultId = (s.saveVault row).pathOf vaultId := by
      simp only [pathOf, Tables.getVault, hvaults, saveVault]
    exact hpath.trans (pathOf_saveVault row vaultId)
  · rw [hwrites]
    simp only [pathOf, Tables.getVault, hvaults]

end Tracking

namespace Recorder

variable {canWatch : Bool} {s t : Recorder}

theorem live_of_stop {w : Watch} (h : w.stop.live = true) : w.live = true := by
  simp only [Watch.live, Watch.stop, Bool.not_true, Bool.false_or] at h
  simp [Watch.live, h]

theorem mem_stopWatcher {w : Watch} (h : w ∈ s.stopWatcher.watches) (hlive : w.live = true) :
    ∃ w' ∈ s.watches, w'.live = true ∧ w'.path = w.path := by
  obtain ⟨i, hi, heq⟩ := List.mem_mapIdx.mp h
  refine ⟨s.watches[i], List.getElem_mem hi, ?_⟩
  split at heq
  · subst heq
    exact ⟨live_of_stop hlive, rfl⟩
  · subst heq
    exact ⟨hlive, rfl⟩

theorem mem_startWatcher {path : FilePath} {w : Watch} :
    w ∈ (s.startWatcher canWatch path).watches ↔
      w ∈ s.watches ∨ (canWatch = true ∧ w = .new path) := by
  cases canWatch <;> simp [startWatcher]

/-- What can deliver after an action could before, or has just begun to. -/
theorem mem_follow {action : TrackingAction} {u : Tracking} (hrestart : action ≠ .restart)
    {w : Watch} (h : w ∈ (s.follow canWatch u action).watches) (hlive : w.live = true) :
    (∃ w' ∈ s.watches, w'.live = true ∧ w'.path = w.path) ∨
      s.tracking.watches canWatch action = some w.path := by
  have hsame (h : w ∈ s.watches) : ∃ w' ∈ s.watches, w'.live = true ∧ w'.path = w.path :=
    ⟨w, h, hlive, rfl⟩
  cases action with
  | stopTrackingVault => exact .inl (mem_stopWatcher h hlive)
  | restart => exact absurd rfl hrestart
  | proceed i =>
    cases hi : s.tracking.calls i with
    | none =>
      simp only [follow, hi] at h
      exact .inl (hsame h)
    | some call =>
      simp only [follow, hi, Option.elim_some] at h
      cases call with
      | bindKnown | imported | bindVaultToFile => exact .inl (mem_stopWatcher h hlive)
      | startWatching path known =>
        rcases mem_startWatcher.mp h with h | ⟨hcan, rfl⟩
        · exact .inl (hsame h)
        · refine .inr ?_
          simp only [Tracking.watches, hi, hcan]
          rfl
      | _ => exact .inl (hsame h)
  | _ => exact .inl (hsame h)

/-- The watch that an action begins. -/
theorem mem_follow_new {action : TrackingAction} {u : Tracking} {path : FilePath}
    (h : s.tracking.watches canWatch action = some path) :
    .new path ∈ (s.follow canWatch u action).watches := by
  cases action with
  | proceed i =>
    simp only [Tracking.watches] at h
    split at h
    · rename_i path' known hi
      cases canWatch with
      | false => cases h
      | true =>
        cases h
        simp only [follow, hi, Option.elim_some, proceed]
        exact mem_startWatcher.mpr (.inr ⟨rfl, rfl⟩)
    · cases h
  | _ => cases h

/-- Only a restart asks for what `start` finds. -/
theorem follow_watches {action : TrackingAction} (u v : Tracking) (hrestart : action ≠ .restart) :
    (s.follow canWatch u action).watches = (s.follow canWatch v action).watches := by
  cases action <;> first | rfl | exact absurd rfl hrestart

/-- A watch that does something could deliver before. -/
theorem live_of_step {w : Watch} {action : WatcherAction Unit} {watcher : VaultFileWatcher Unit}
    (htakes : w.takes action = true) (h : w.watcher.step action = some watcher) :
    w.live = true := by
  cases hrunning : w.watcher.running with
  | some run => simp [Watch.live, hrunning]
  | none =>
    cases action with
    | event =>
      simp only [Watch.takes] at htakes
      simp [Watch.live, htakes]
    | timerFires =>
      simp only [VaultFileWatcher.step] at h
      split at h
      · rename_i htimer
        simp [Watch.live, htimer]
      · cases h
    | pollNow => cases htakes
    | readEnds | delayEnds | onChangeEnds =>
      simp only [VaultFileWatcher.step, hrunning] at h
      cases h

/-- A delivery under way has read its file. -/
theorem live_of_records {w : Watch} {bytes : Unit} {watcher : VaultFileWatcher Unit}
    (h : w.watcher.step (.readEnds (some bytes)) = some watcher) : w.live = true :=
  live_of_step rfl h

theorem Apart.step_watch (hs : s.Apart) {i : Nat} {action : WatcherAction Unit}
    (h : step canWatch s (.watch i action) = some t) : t.Apart := by
  obtain ⟨w, hw, h⟩ := Option.bind_eq_some_iff.mp h
  split at h
  · rename_i htakes
    obtain ⟨watcher, hwatcher, rfl⟩ := Option.map_eq_some_iff.mp h
    refine ⟨fun w' hw' hlive => ?_, hs.reads⟩
    rcases List.mem_or_eq_of_mem_set hw' with hold | rfl
    · exact hs.watches w' hold hlive
    · exact hs.watches w (List.mem_of_getElem? hw) (live_of_step htakes hwatcher)
  · cases h

theorem mem_of_storedActive {tables : Tables} {active : Vault}
    (h : Tracking.storedActive tables = some active) : active ∈ tables.vaults.rows := by
  rw [← Tracking.mem_vaultsInOrder]
  rcases Option.or_eq_some_iff.mp h with hfound | ⟨-, hlast⟩
  · exact List.mem_of_find?_eq_some hfound
  · exact List.mem_of_getLast? hlast

/-- After a restart, the file of the active vault is watched. -/
theorem apart_restart (h : step canWatch s (.track .restart) = some t) : t.Apart := by
  obtain ⟨u, hu, rfl⟩ := Option.map_eq_some_iff.mp h
  simp only [Tracking.step] at hu
  split at hu
  · cases hu
    refine ⟨fun w _ _ vaultId hactive => ?_, fun i _ _ hreads => ?_⟩
    · cases hactive
    · cases hreads
  · rename_i active hactive
    cases hu
    refine ⟨fun w hw _ vaultId hvault => ?_, fun i _ _ hreads => ?_⟩
    · obtain ⟨path, hpath, rfl⟩ := List.mem_map.mp hw
      cases hvault
      have hrow : (s.tracking.tables.getVault active.id).bind (·.kdbxPath) = active.kdbxPath := by
        rw [Tables.getVault, Table.find_of_mem (mem_of_storedActive hactive)]
        rfl
      cases canWatch with
      | false => cases hpath
      | true => exact hrow.trans (Option.mem_toList.mp hpath)
    · cases hreads

theorem Apart.step_track (hs : s.Apart) (hcounted : s.tracking.Counted) {action : TrackingAction}
    (hrestart : action ≠ .restart) (hfits : Fits canWatch s action)
    (h : step canWatch s (.track action) = some t) : t.Apart := by
  obtain ⟨u, hu, rfl⟩ := Option.map_eq_some_iff.mp h
  have hfollows := Tracking.follows_step hu hrestart
  refine ⟨fun w hw hlive vaultId hactive => ?_, fun i vaultId path hreads => ?_⟩
  · have hw' : w ∈ (s.follow canWatch s.tracking action).watches :=
      follow_watches u s.tracking hrestart ▸ hw
    have hbefore (hold : vaultId ∈ s.tracking.vaultId) :
        s.tracking.pathOf vaultId = some w.path := by
      rcases mem_follow hrestart hw hlive with ⟨w', hmem, hlive', hpath⟩ | hnew
      · rw [← hpath]
        exact hs.watches w' hmem hlive' vaultId hold
      · exact hfits.watch _ hnew vaultId hold
    rw [Tracking.pathOf_step hu]
    rcases hfollows.active with hvault | ⟨hnone, -⟩
    · cases hactivates : s.tracking.activates action with
      | some chosen =>
        rw [hactivates, Option.some_or] at hvault
        cases hvault.symm.trans hactive
        cases hwrites : s.tracking.writes action with
        | some row => cases hactivates.symm.trans (hfollows.stays row hwrites).1
        | none => exact hfits.active _ hactivates w hw' hlive
      | none =>
        rw [hactivates, Option.none_or] at hvault
        have hold : vaultId ∈ s.tracking.vaultId := hvault ▸ hactive
        cases hwrites : s.tracking.writes action with
        | none => exact hbefore hold
        | some row =>
          dsimp only
          split
          · rename_i hid
            subst hid
            exact hfits.row row hwrites hold w hw' hlive
          · exact hbefore hold
    · cases hnone.symm.trans hactive
  · rw [Tracking.pathOf_step hu]
    rcases hfollows.reads i vaultId path hreads with hold | ⟨hwrites, hpath⟩
    · cases hwrites : s.tracking.writes action with
      | none => exact hs.reads i vaultId path hold
      | some row =>
        dsimp only
        split
        · rename_i hid
          subst hid
          exact hfits.reads row hwrites i (hcounted i _ hold) (row.id, path)
            (Tracking.reading_eq_some.mpr hold) rfl
        · exact hs.reads i vaultId path hold
    · rw [hwrites]
      exact hpath

/-- What an action makes possible fits if nothing can be recorded for the wrong vault after it. -/
theorem fits_of_apart {action : TrackingAction}
    (h : step canWatch s (.track action) = some t) (ht : t.Apart) : Fits canWatch s action := by
  by_cases hrestart : action = .restart
  · subst hrestart
    exact ⟨nofun, nofun, nofun, nofun⟩
  obtain ⟨u, hu, rfl⟩ := Option.map_eq_some_iff.mp h
  have hfollows := Tracking.follows_step hu hrestart
  have hpath := Tracking.pathOf_step hu
  have hlive (w : Watch) (hw : w ∈ (s.follow canWatch s.tracking action).watches) :
      w ∈ (s.follow canWatch u action).watches := follow_watches u s.tracking hrestart ▸ hw
  refine ⟨fun row hrow hactive w hw hl => ?_, fun row hrow i _ read hread hid => ?_,
    fun vaultId hvault w hw hl => ?_, fun path hnew vaultId hvault => ?_⟩
  · have hstill : u.vaultId = some row.id := by
      rcases hfollows.active with hsame | ⟨-, -, hnone, -⟩
      · rw [hsame, (hfollows.stays row hrow).1, Option.none_or, hactive]
      · cases hnone.symm.trans hrow
    have hafter := ht.watches w (hlive w hw) hl row.id hstill
    rw [hpath, hrow] at hafter
    exact (if_pos rfl).symm.trans hafter
  · have hreads := Tracking.reading_eq_some.mp hread
    have hafter := ht.reads i _ _ ((hfollows.stays row hrow).2 i _ _ hreads)
    rw [hpath, hrow] at hafter
    exact (if_pos hid.symm).symm.trans hafter
  · have hchosen : u.vaultId = some vaultId := by
      rcases hfollows.active with hsame | ⟨-, hnone, -⟩
      · rw [hsame, hvault, Option.some_or]
      · cases hnone.symm.trans hvault
    have hafter := ht.watches w (hlive w hw) hl vaultId hchosen
    rw [hpath] at hafter
    cases hwrites : s.tracking.writes action with
    | some row => cases (hfollows.stays row hwrites).1.symm.trans hvault
    | none => rwa [hwrites] at hafter
  · obtain ⟨hactivates, hwrites⟩ := Tracking.only_watches hnew
    have hstill : u.vaultId = some vaultId := by
      rcases hfollows.active with hsame | ⟨-, -, -, hnone⟩
      · rw [hsame, hactivates, Option.none_or, hvault]
      · cases hnone.symm.trans hnew
    have hafter := ht.watches (.new path) (mem_follow_new hnew) rfl vaultId hstill
    rwa [hpath, hwrites] at hafter

theorem apart_fresh : fresh.Apart :=
  ⟨fun _ hw => absurd hw List.not_mem_nil, fun i _ _ hreads => by cases hreads⟩

theorem counted_step {action : RecorderAction} (hs : s.tracking.Counted)
    (h : step canWatch s action = some t) : t.tracking.Counted := by
  cases action with
  | watch i action =>
    obtain ⟨w, -, h⟩ := Option.bind_eq_some_iff.mp h
    split at h
    · obtain ⟨watcher, -, rfl⟩ := Option.map_eq_some_iff.mp h
      exact hs
    · cases h
  | track action =>
    obtain ⟨u, hu, rfl⟩ := Option.map_eq_some_iff.mp h
    by_cases hrestart : action = .restart
    · subst hrestart
      simp only [Tracking.step] at hu
      split at hu <;> cases hu <;> rintro _ _ ⟨⟩
    · exact (Tracking.follows_step hu hrestart).counted hs

theorem Apart.step {action : RecorderAction} (hs : s.Apart) (hcounted : s.tracking.Counted)
    (hsuits : s.Suits canWatch action) (h : Recorder.step canWatch s action = some t) :
    t.Apart := by
  cases action with
  | watch => exact hs.step_watch h
  | track action =>
    by_cases hrestart : action = .restart
    · subst hrestart
      exact apart_restart h
    · exact hs.step_track hcounted hrestart hsuits h

/-- What is recorded is of the file of its vault where nothing else can be recorded. -/
theorem Apart.records (hs : s.Apart) {action : RecorderAction} {vaultId : VaultId}
    {path : FilePath} (h : Recorder.step canWatch s action = some t)
    (hrecords : s.records action = some (vaultId, path)) :
    s.tracking.pathOf vaultId = some path := by
  cases action with
  | track action =>
    cases action with
    | proceed i =>
      exact hs.reads i vaultId path (Tracking.reading_eq_some.mp hrecords)
    | _ => cases hrecords
  | watch i action =>
    cases action with
    | readEnds bytes =>
      cases bytes with
      | none => cases hrecords
      | some bytes =>
        obtain ⟨w, hw, hrecords⟩ := Option.bind_eq_some_iff.mp hrecords
        obtain ⟨v, hv, heq⟩ := Option.map_eq_some_iff.mp hrecords
        cases heq
        obtain ⟨w', hw', h⟩ := Option.bind_eq_some_iff.mp h
        cases hw.symm.trans hw'
        split at h
        · obtain ⟨watcher, hwatcher, -⟩ := Option.map_eq_some_iff.mp h
          exact hs.watches w (List.mem_of_getElem? hw) (live_of_records hwatcher) _ hv
        · cases h
    | _ => cases hrecords

theorem apart_play {actions : List RecorderAction}
    (hmeets : Meets (step canWatch) (Suits canWatch) fresh actions)
    (h : play (step canWatch) fresh actions = some s) : s.Apart := by
  have hcounted : fresh.tracking.Counted := by
    intro i call hi
    cases hi
  have hboth : s.Apart ∧ s.tracking.Counted :=
    hmeets.keeps (P := fun s => s.Apart ∧ s.tracking.Counted)
      (fun _ _ _ hs hC hstep => ⟨hs.1.step hs.2 hC hstep, counted_step hs.2 hstep⟩) h
      ⟨apart_fresh, hcounted⟩
  exact hboth.1

/-- **Nothing is recorded for the wrong vault, and nothing can be**, in exactly those runs in which
whatever changes the active vault, its file or the watch fits what can still be recorded. -/
theorem keeps_apart_iff (canWatch : Bool) (actions : List RecorderAction) (t : Recorder)
    (h : play (step canWatch) fresh actions = some t) :
    KeepsApart canWatch actions ↔ Meets (step canWatch) (Suits canWatch) fresh actions := by
  constructor
  · intro hkeeps
    rw [meets_iff h]
    intro before action after u hsplit hbefore
    cases action with
    | watch => trivial
    | track action =>
      subst hsplit
      obtain ⟨u', v, hu', hv, hafter⟩ := play_around h
      cases hbefore.symm.trans hu'
      exact fits_of_apart hv
        (hkeeps.apart (before ++ [.track action]) after v (by simp) (play_concat hbefore hv))
  · intro hmeets
    constructor
    · intro before action after s t vaultId path hsplit hs hstep hrecords
      exact (apart_play (hsplit ▸ hmeets).of_append hs).records hstep hrecords
    · intro before after s hsplit hs
      exact apart_play (hsplit ▸ hmeets).of_append hs

/-- A second file is bound when the watch of the first is at rest. -/
def bindAtRest : List RecorderAction :=
  (Tracking.bindBoth.take 5).map .track ++
    [.watch 0 .event, .watch 0 .timerFires, .watch 0 (.readEnds (some ())),
      .watch 0 (.onChangeEnds false)] ++ (Tracking.bindBoth.drop 5).map .track

theorem keeps_apart_iff_atRest : KeepsApart true bindAtRest := by
  have hplays : (play (step true) fresh bindAtRest).isSome := by decide +kernel
  obtain ⟨t, ht⟩ := Option.isSome_iff_exists.mp hplays
  exact (keeps_apart_iff true _ t ht).mpr (by decide +kernel)

/-- It is bound while the first is read. -/
def bindDuringRead : List RecorderAction :=
  (Tracking.bindBoth.take 5).map .track ++ [.watch 0 .event, .watch 0 .timerFires] ++
    ((Tracking.bindBoth.drop 5).take 4).map .track

/-- What is read is recorded for the second vault. -/
theorem not_keeps_apart_read :
    ¬ KeepsApart true (bindDuringRead ++ [.watch 0 (.readEnds (some ()))]) := by
  intro hkeeps
  have hwrong : ∃ s ∈ play (step true) fresh bindDuringRead,
      (step true s (.watch 0 (.readEnds (some ())))).isSome ∧
      ∃ read ∈ s.records (.watch 0 (.readEnds (some ()))),
        s.tracking.pathOf read.1 ≠ some read.2 := by
    decide +kernel
  obtain ⟨s, hs, hstep, read, hread, hne⟩ := hwrong
  obtain ⟨t, ht⟩ := Option.isSome_iff_exists.mp hstep
  exact hne (hkeeps.records bindDuringRead _ [] s t read.1 read.2 rfl hs ht hread)

end Recorder

end PassVault
