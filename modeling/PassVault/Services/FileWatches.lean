import PassVault.Storage.WatcherStop

/-!
# The watches of a device

The watchers that `startWatching` of `packages/services/src/vaultServices.ts` has made, one after
the other. It stops the one before, waits, and makes the next one; `stopTrackingVault` makes none.
-/

namespace PassVault

open Machine

structure FileWatches where
  watches : List (FilePath × StoppableWatcher)
  /-- `this.watcher`. -/
  current : Option Nat
  /-- Calls that wait for the `stop` of a watch, and the file they are going to watch. -/
  waiting : List (Option Nat × Option FilePath)
deriving DecidableEq, Repr

inductive FileWatchesAction where
  /-- A call of `startWatching`, or of `stopTrackingVault`, up to its await. -/
  | begins (next : Option FilePath)
  | goesOn (k : Nat)
  | closeEnds (i : Nat)
  | runs (i : Nat) (action : WatcherAction Bytes)
deriving DecidableEq, Repr

namespace FileWatches

def fresh : FileWatches := ⟨[], none, []⟩

/-- The promise that the call awaits has resolved. -/
def resolved (s : FileWatches) : Option Nat → Bool
  | none => true
  | some i => ((s.watches[i]?).map (·.2.stopped)).getD false

/-- `this.watcher?.stop()`. -/
def stopCurrent (s : FileWatches) : FileWatches :=
  { s with watches := s.watches.mapIdx fun i w => if s.current = some i then (w.1, w.2.stop) else w }

/-- One of the watchers does something. -/
def acting (s : FileWatches) (i : Nat) (action : StoppableAction) : Option FileWatches :=
  (s.watches[i]?).bind fun w =>
    (w.2.step action).map fun watcher => { s with watches := s.watches.set i (w.1, watcher) }

def step (s : FileWatches) : FileWatchesAction → Option FileWatches
  | .begins next => some { s.stopCurrent with waiting := s.waiting ++ [(s.current, next)] }
  | .goesOn k =>
    (s.waiting[k]?).bind fun (stopping, next) =>
      if s.resolved stopping then
        let s := { s with waiting := s.waiting.eraseIdx k }
        match next with
        | none => some { s with current := none }
        | some path =>
          some { s with
            watches := s.watches ++ [(path, .started)]
            current := some s.watches.length }
      else none
  | .closeEnds i => s.acting i .closeEnds
  | .runs i action => s.acting i (.runs action)

/-- The watch whose `onChange` an action calls, and with which bytes. -/
def reports : FileWatchesAction → Option (Nat × Bytes)
  | .runs i (.readEnds bytes) => bytes.map (i, ·)
  | _ => none

def Stopped (s : FileWatches) (i : Nat) : Prop := ∃ w ∈ s.watches[i]?, w.2.stopped = true

/-- However it goes on, a watch stopped by now calls `onChange` no more. -/
def Silent (s : FileWatches) (i : Nat) : Prop :=
  ∀ later t action t', play step s later = some t → step t action = some t' →
    ∀ bytes, reports action ≠ some (i, bytes)

/-- Wherever the run comes by, a watch whose `stop` has resolved is silent from then on; so is the
watch of the file before, once the next file is watched. -/
structure Quiet (actions : List FileWatchesAction) : Prop where
  stopped : ∀ before after s i, actions = before ++ after → play step fresh before = some s →
    s.Stopped i → s.Silent i
  handover : ∀ before k after s t i next, actions = before ++ .goesOn k :: after →
    play step fresh before = some s → step s (.goesOn k) = some t →
    s.waiting[k]? = some (some i, next) → t.Silent i

/-- When a `stop` resolves, the watcher has settled. -/
def Settles (s : FileWatches) : FileWatchesAction → Prop
  | .closeEnds i => ∀ w ∈ s.watches[i]?, w.2.Settled
  | _ => True

instance (w : StoppableWatcher) : Decidable w.Settled :=
  decidable_of_iff (w.inner.timer = false ∧ ∀ delivery ∈ w.inner.running,
    w.inner.pending = false ∧ delivery.2.calling = true)
    ⟨fun ⟨htimer, hrunning⟩ => ⟨htimer, fun began stage h => by
        obtain ⟨hpending, hstage⟩ := hrunning (began, stage) h
        exact ⟨hpending, DeliveryStage.calling_iff.mp hstage⟩⟩,
      fun h => ⟨h.timer, fun ⟨began, stage⟩ hmem => by
        obtain ⟨hpending, hstage⟩ := h.running began stage hmem
        exact ⟨hpending, DeliveryStage.calling_iff.mpr hstage⟩⟩⟩

instance (s : FileWatches) : DecidablePred s.Settles
  | .closeEnds i => inferInstanceAs (Decidable (∀ w ∈ s.watches[i]?, w.2.Settled))
  | .begins _ => isTrue trivial
  | .goesOn _ => isTrue trivial
  | .runs _ _ => isTrue trivial

/-! ## One watch in a step -/

theorem acting_eq_some {s t : FileWatches} {i : Nat} {action : StoppableAction} :
    s.acting i action = some t ↔ ∃ path w w', s.watches[i]? = some (path, w) ∧ w.step action = some w' ∧
      t = { s with watches := s.watches.set i (path, w') } := by
  unfold FileWatches.acting
  rw [Option.bind_eq_some_iff]
  constructor
  · intro h
    obtain ⟨⟨path, w⟩, hi, h⟩ := h
    obtain ⟨w', hw', rfl⟩ := Option.map_eq_some_iff.mp h
    exact ⟨path, w, w', hi, hw', rfl⟩
  · intro h
    obtain ⟨path, w, w', hi, hw', rfl⟩ := h
    exact ⟨(path, w), hi, by rw [hw']; rfl⟩

/-- A watch keeps its file, and does at most one thing in a step. An `onChange` that the step calls
for it is its own doing. -/
theorem step_watch {s t : FileWatches} {action : FileWatchesAction} (h : step s action = some t)
    {i : Nat} {path : FilePath} {w : StoppableWatcher} (hi : s.watches[i]? = some (path, w)) :
    ∃ w', t.watches[i]? = some (path, w') ∧
      ((w' = w ∧ ∀ bytes, reports action ≠ some (i, bytes)) ∨
        ∃ doing, w.step doing = some w' ∧ (doing = .closeEnds → action = .closeEnds i) ∧
          ∀ bytes, reports action = some (i, bytes) → StoppableWatcher.reports doing = some bytes) := by
  have hat : ∀ j doing, s.acting j doing = some t → (doing = .closeEnds → action = .closeEnds j) →
      (∀ bytes, reports action = some (i, bytes) → j = i ∧
        StoppableWatcher.reports doing = some bytes) →
      ∃ w', t.watches[i]? = some (path, w') ∧
        ((w' = w ∧ ∀ bytes, reports action ≠ some (i, bytes)) ∨
          ∃ doing, w.step doing = some w' ∧ (doing = .closeEnds → action = .closeEnds i) ∧
            ∀ bytes, reports action = some (i, bytes) →
              StoppableWatcher.reports doing = some bytes) := by
    intro j doing hdoing hcloses hreports
    obtain ⟨path', v, v', hj, hv', rfl⟩ := acting_eq_some.mp hdoing
    have hlt := (List.getElem?_eq_some_iff.mp hi).1
    by_cases hij : j = i
    · subst hij
      cases hi.symm.trans hj
      refine ⟨v', by simp [hlt], .inr ⟨doing, hv', hcloses, ?_⟩⟩
      intro bytes hbytes
      exact (hreports bytes hbytes).2
    · refine ⟨w, by simp [hij, hi], .inl ⟨rfl, ?_⟩⟩
      intro bytes hbytes
      exact hij (hreports bytes hbytes).1
  cases action with
  | begins next =>
    cases h
    by_cases hcurrent : s.current = some i
    · refine ⟨w.stop, by simp [stopCurrent, hi, hcurrent], .inr ⟨.stop, rfl, nofun, nofun⟩⟩
    · exact ⟨w, by simp [stopCurrent, hi, hcurrent], .inl ⟨rfl, nofun⟩⟩
  | goesOn k =>
    refine ⟨w, ?_, .inl ⟨rfl, nofun⟩⟩
    obtain ⟨⟨stopping, next⟩, -, h⟩ := Option.bind_eq_some_iff.mp h
    obtain ⟨-, h⟩ := Option.ite_none_right_eq_some.mp h
    cases next with
    | none =>
      cases h
      exact hi
    | some path' =>
      cases h
      have hlt := (List.getElem?_eq_some_iff.mp hi).1
      simp [List.getElem?_append_left hlt, hi]
  | closeEnds j => exact hat j .closeEnds h (fun _ => rfl) nofun
  | runs j doing =>
    apply hat j (.runs doing) h nofun
    intro bytes hbytes
    cases doing with
    | readEnds found =>
      cases found with
      | none => cases hbytes
      | some found =>
        cases hbytes
        exact ⟨rfl, rfl⟩
    | _ => cases hbytes

/-- A watch that a step makes has just been started. -/
theorem new_watch {s t : FileWatches} {action : FileWatchesAction} (h : step s action = some t)
    {i : Nat} {path : FilePath} {w : StoppableWatcher} (hi : t.watches[i]? = some (path, w))
    (hnone : s.watches[i]? = none) : w = .started := by
  have hge := List.getElem?_eq_none_iff.mp hnone
  have hat : ∀ j doing, s.acting j doing = some t → w = .started := by
    intro j doing hdoing
    obtain ⟨path', v, v', -, -, rfl⟩ := acting_eq_some.mp hdoing
    have hlt := (List.getElem?_eq_some_iff.mp hi).1
    simp only [List.length_set] at hlt
    omega
  cases action with
  | begins next =>
    cases h
    have hlt := (List.getElem?_eq_some_iff.mp hi).1
    simp only [stopCurrent, List.length_mapIdx] at hlt
    omega
  | goesOn k =>
    obtain ⟨⟨stopping, next⟩, -, h⟩ := Option.bind_eq_some_iff.mp h
    obtain ⟨-, h⟩ := Option.ite_none_right_eq_some.mp h
    cases next with
    | none =>
      cases h
      rw [hnone] at hi
      cases hi
    | some path' =>
      cases h
      rw [List.getElem?_append_right hge] at hi
      have hlast := List.mem_of_getElem? hi
      simp only [List.mem_singleton, Prod.mk.injEq] at hlast
      exact hlast.2
  | closeEnds j => exact hat j .closeEnds h
  | runs j doing => exact hat j (.runs doing) h

/-! ## Runs -/

def AllFlags (s : FileWatches) : Prop := ∀ (i : Nat) (path : FilePath) (w : StoppableWatcher),
  s.watches[i]? = some (path, w) → w.Flags

theorem step_allFlags {s t : FileWatches} {action : FileWatchesAction} (h : step s action = some t)
    (hs : s.AllFlags) : t.AllFlags := by
  intro i path w hi
  cases hbefore : s.watches[i]? with
  | none =>
    rw [new_watch h hi hbefore]
    exact StoppableWatcher.flags_started
  | some entry =>
    obtain ⟨path', v⟩ := entry
    obtain ⟨w', hw', hdoing⟩ := step_watch h hbefore
    cases hi.symm.trans hw'
    rcases hdoing with ⟨rfl, -⟩ | ⟨doing, hdoing, -, -⟩
    · exact hs i _ _ hbefore
    · exact StoppableWatcher.step_flags hdoing (hs i _ _ hbefore)

theorem play_allFlags {s t : FileWatches} {actions : List FileWatchesAction}
    (h : play step s actions = some t) (hs : s.AllFlags) : t.AllFlags :=
  play_keeps (P := AllFlags) (fun _ _ _ _ hs h => step_allFlags h hs) h hs

theorem allFlags_fresh : fresh.AllFlags := by
  intro i path w hi
  cases hi

/-- The watch is stopped and has settled. -/
def Still (s : FileWatches) (i : Nat) : Prop :=
  ∃ path w, s.watches[i]? = some (path, w) ∧ w.stopped = true ∧ w.Settled

/-- It stays so, and no step calls its `onChange`. -/
theorem step_still {s t : FileWatches} {action : FileWatchesAction} {i : Nat}
    (h : step s action = some t) (hs : s.AllFlags) (hstill : s.Still i) :
    t.Still i ∧ ∀ bytes, reports action ≠ some (i, bytes) := by
  obtain ⟨path, w, hi, hstopped, hsettled⟩ := hstill
  obtain ⟨w', hi', hdoing⟩ := step_watch h hi
  rcases hdoing with ⟨rfl, hquiet⟩ | ⟨doing, hdoing, -, hreports⟩
  · exact ⟨⟨path, w', hi', hstopped, hsettled⟩, hquiet⟩
  · obtain ⟨hsettled', hstopped', hnone⟩ :=
      StoppableWatcher.step_settled (hs i path w hi) hstopped hsettled hdoing
    refine ⟨⟨path, w', hi', hstopped', hsettled'⟩, ?_⟩
    intro bytes hbytes
    rw [hreports bytes hbytes] at hnone
    cases hnone

theorem silent_of_still {s : FileWatches} {i : Nat} (hs : s.AllFlags) (hstill : s.Still i) :
    s.Silent i := by
  intro later t action t' hplay hstep
  have ht : t.AllFlags ∧ t.Still i :=
    play_keeps (P := fun s => s.AllFlags ∧ s.Still i)
      (fun _ _ _ _ hs h => ⟨step_allFlags h hs.1, (step_still h hs.1 hs.2).1⟩) hplay ⟨hs, hstill⟩
  exact (step_still hstep ht.1 ht.2).2

theorem runs_eq {s : FileWatches} {i : Nat} {path : FilePath} {w w' : StoppableWatcher}
    {action : WatcherAction Bytes} (hi : s.watches[i]? = some (path, w))
    (h : w.step (.runs action) = some w') :
    step s (.runs i action) = some { s with watches := s.watches.set i (path, w') } :=
  acting_eq_some.mpr ⟨path, w, w', hi, h, rfl⟩

/-- What a watcher can do alone, the device can come to. -/
theorem play_runs {i : Nat} {path : FilePath} {actions : List (WatcherAction Bytes)} :
    ∀ {s : FileWatches} {w w' : StoppableWatcher}, s.watches[i]? = some (path, w) →
      play StoppableWatcher.step w (actions.map .runs) = some w' →
      ∃ t, play step s (actions.map (.runs i)) = some t ∧ t.watches[i]? = some (path, w') := by
  induction actions with
  | nil =>
    intro s w w' hi h
    cases h
    exact ⟨s, rfl, hi⟩
  | cons action rest ih =>
    intro s w w' hi h
    obtain ⟨v, hv, h⟩ := Option.bind_eq_some_iff.mp h
    have hlt := (List.getElem?_eq_some_iff.mp hi).1
    obtain ⟨t, ht, hit⟩ := ih (s := { s with watches := s.watches.set i (path, v) })
      (by simp [hlt]) h
    refine ⟨t, ?_, hit⟩
    rw [List.map_cons, play, runs_eq hi hv]
    exact ht

theorem not_silent_of_canReport {s : FileWatches} {i : Nat} {path : FilePath} {w : StoppableWatcher}
    (hi : s.watches[i]? = some (path, w)) (h : w.CanReport) : ¬ s.Silent i := by
  intro hsilent
  obtain ⟨actions, w', bytes, w'', hplay, hreport⟩ := h
  obtain ⟨t, ht, hit⟩ := play_runs hi hplay
  exact hsilent _ t _ _ ht (runs_eq hit hreport) bytes rfl

/-- A stopped watch is silent from then on if and only if it has settled. -/
theorem silent_iff_settled {s : FileWatches} {i : Nat} {path : FilePath} {w : StoppableWatcher}
    (hs : s.AllFlags) (hi : s.watches[i]? = some (path, w)) (hstopped : w.stopped = true) :
    s.Silent i ↔ w.Settled := by
  constructor
  · intro hsilent
    by_contra hnot
    exact not_silent_of_canReport hi (StoppableWatcher.canReport_of_unsettled (hs i path w hi) hnot)
      hsilent
  · intro hsettled
    exact silent_of_still hs ⟨path, w, hi, hstopped, hsettled⟩

/-- All stopped watches have settled. -/
def AllStill (s : FileWatches) : Prop := ∀ i, s.Stopped i → s.Still i

theorem stopped_iff {s : FileWatches} {i : Nat} :
    s.Stopped i ↔ ∃ path w, s.watches[i]? = some (path, w) ∧ w.stopped = true := by
  constructor
  · intro h
    obtain ⟨⟨path, w⟩, hi, hstopped⟩ := h
    exact ⟨path, w, hi, hstopped⟩
  · intro h
    obtain ⟨path, w, hi, hstopped⟩ := h
    exact ⟨(path, w), hi, hstopped⟩

theorem step_stopped {s t : FileWatches} {action : FileWatchesAction} {i : Nat}
    (h : step s action = some t) (hstopped : s.Stopped i) : t.Stopped i := by
  obtain ⟨path, w, hi, hstopped⟩ := stopped_iff.mp hstopped
  obtain ⟨w', hi', hdoing⟩ := step_watch h hi
  apply stopped_iff.mpr
  rcases hdoing with ⟨rfl, -⟩ | ⟨doing, hdoing, -, -⟩
  · exact ⟨path, w', hi', hstopped⟩
  · rcases StoppableWatcher.step_stopped hdoing with heq | ⟨-, hstopped', -⟩
    · exact ⟨path, w', hi', heq.trans hstopped⟩
    · exact ⟨path, w', hi', hstopped'⟩

/-- Stops that resolve when the watcher has settled leave every stopped watch settled. -/
theorem step_allStill {s t : FileWatches} {action : FileWatchesAction} (hs : s.AllFlags)
    (hstill : s.AllStill) (hsettles : s.Settles action) (h : step s action = some t) :
    t.AllStill := by
  intro i hstopped
  obtain ⟨path, w', hi', hstopped⟩ := stopped_iff.mp hstopped
  cases hi : s.watches[i]? with
  | none =>
    rw [new_watch h hi' hi] at hstopped
    cases hstopped
  | some entry =>
    obtain ⟨path', w⟩ := entry
    by_cases hbefore : w.stopped = true
    · exact (step_still h hs (hstill i (stopped_iff.mpr ⟨path', w, hi, hbefore⟩))).1
    · obtain ⟨v, hv, hdoing⟩ := step_watch h hi
      cases hi'.symm.trans hv
      rcases hdoing with ⟨rfl, -⟩ | ⟨doing, hdoing, hcloses, -⟩
      · exact absurd hstopped hbefore
      · rcases StoppableWatcher.step_stopped hdoing with heq | ⟨rfl, -, hinner⟩
        · exact absurd (heq.symm.trans hstopped) hbefore
        · rw [hcloses rfl] at hsettles
          have hsettled : w.Settled := hsettles (path, w) hi
          exact ⟨path, w', hi', hstopped, hsettled.of_inner hinner⟩

/-- **A stopped watcher is silent.** In a run, a watch whose `stop` has resolved never calls its
`onChange` again, however the run goes on, if and only if every `stop` resolves when its watcher
has settled: with no timer armed, and no delivery under way but one that has called `onChange` and
is not to be repeated. -/
theorem quiet_iff {actions : List FileWatchesAction} {s : FileWatches}
    (h : play step fresh actions = some s) : Quiet actions ↔ Meets step Settles fresh actions := by
  constructor
  · intro hquiet
    rw [meets_iff h]
    intro before action after u hsplit hbefore
    cases action with
    | closeEnds i =>
      rw [hsplit] at h
      obtain ⟨u', v, hu', hstep, -⟩ := play_around h
      cases hbefore.symm.trans hu'
      intro entry hi
      obtain ⟨path, w, w', hi', hdoing, rfl⟩ := acting_eq_some.mp hstep
      cases hi.symm.trans hi'
      have hlt := (List.getElem?_eq_some_iff.mp hi').1
      have hafter : (u.watches.set i (path, w'))[i]? = some (path, w') := by simp [hlt]
      rw [StoppableWatcher.step, Option.ite_none_right_eq_some] at hdoing
      obtain ⟨-, hdoing⟩ := hdoing
      obtain rfl := Option.some.inj hdoing
      -- The stopped watch is silent, and what it is busy with is what it was busy with before.
      have hrun := play_concat hu' hstep
      have hsilent := hquiet.stopped (before ++ [.closeEnds i]) after _ i (by simpa using hsplit)
        hrun (stopped_iff.mpr ⟨path, _, hafter, rfl⟩)
      have hflags := play_allFlags hrun allFlags_fresh
      exact ((silent_iff_settled hflags hafter rfl).mp hsilent).of_inner rfl
    | begins => trivial
    | goesOn => trivial
    | runs => trivial
  · intro hmeets
    have hstill : ∀ before after u, actions = before ++ after → play step fresh before = some u →
        u.AllFlags ∧ u.AllStill := by
      intro before after u hsplit hu
      rw [hsplit] at hmeets
      apply hmeets.of_append.keeps (P := fun s => s.AllFlags ∧ s.AllStill) _ hu
      · constructor
        · exact allFlags_fresh
        · intro i hstopped
          obtain ⟨path, w, hi, -⟩ := stopped_iff.mp hstopped
          cases hi
      · intro s action t hs hsettles hstep
        exact ⟨step_allFlags hstep hs.1, step_allStill hs.1 hs.2 hsettles hstep⟩
    have hsilent : ∀ before after u i, actions = before ++ after →
        play step fresh before = some u → u.Stopped i → u.Silent i := by
      intro before after u i hsplit hu hstopped
      obtain ⟨hflags, hall⟩ := hstill before after u hsplit hu
      exact silent_of_still hflags (hall i hstopped)
    constructor
    · exact hsilent
    · intro before k after u t i next hsplit hu hstep hwaiting
      have hstopped : u.Stopped i := by
        obtain ⟨⟨stopping, next'⟩, hk, hgoes⟩ := Option.bind_eq_some_iff.mp hstep
        cases hwaiting.symm.trans hk
        obtain ⟨hresolved, -⟩ := Option.ite_none_right_eq_some.mp hgoes
        rw [resolved] at hresolved
        cases hi : u.watches[i]? with
        | none => simp [hi] at hresolved
        | some entry =>
          rw [hi] at hresolved
          exact ⟨entry, hi, hresolved⟩
      exact hsilent (before ++ [.goesOn k]) after t i (by simpa using hsplit)
        (play_concat hu hstep) (step_stopped hstep hstopped)

/-- A save of the first file is handled before the device turns to the second one. -/
def handledFirst : List FileWatchesAction :=
  [.begins (some ⟨"home.kdbx"⟩), .goesOn 0, .runs 0 .event, .runs 0 .timerFires,
    .runs 0 (.readEnds (some [1])), .runs 0 (.onChangeEnds false), .begins (some ⟨"work.kdbx"⟩),
    .closeEnds 0, .goesOn 0, .runs 1 .event]

theorem quiet_iff_handledFirst : Quiet handledFirst := by
  obtain ⟨s, hs⟩ : ∃ s, play step fresh handledFirst = some s :=
    Option.isSome_iff_exists.mp (by decide +kernel)
  exact (quiet_iff hs).mpr (by decide +kernel)

/-- The first file is still being read when the device turns to the second one. -/
def stillReading : List FileWatchesAction :=
  [.begins (some ⟨"home.kdbx"⟩), .goesOn 0, .runs 0 .event, .runs 0 .timerFires,
    .begins (some ⟨"work.kdbx"⟩), .closeEnds 0, .goesOn 0]

/-- Its bytes are passed to `onChange` after the second watch has begun. -/
theorem not_quiet_stillReading : ¬ ∀ actions s, play step fresh actions = some s → Quiet actions := by
  intro hall
  obtain ⟨s, hs⟩ : ∃ s, play step fresh stillReading = some s :=
    Option.isSome_iff_exists.mp (by decide +kernel)
  obtain ⟨t, ht⟩ : ∃ t, step s (.runs 0 (.readEnds (some [1]))) = some t := by
    have hsome : (play step fresh (stillReading ++ [.runs 0 (.readEnds (some [1]))])).isSome := by
      decide +kernel
    rw [play_append, hs, Option.bind_some, play] at hsome
    obtain ⟨u, hu⟩ := Option.isSome_iff_exists.mp hsome
    obtain ⟨t, ht, -⟩ := Option.bind_eq_some_iff.mp hu
    exact ⟨t, ht⟩
  have hstopped : s.Stopped 0 := by
    have hwatch : ((play step fresh stillReading).bind fun s => s.watches[0]?.map (·.2.stopped)) =
        some true := by decide +kernel
    rw [hs, Option.bind_some] at hwatch
    exact Option.map_eq_some_iff.mp hwatch
  exact (hall stillReading s hs).stopped stillReading [] s 0 (by simp) hs hstopped [] s _ t rfl ht
    [1] rfl

end FileWatches

end PassVault
