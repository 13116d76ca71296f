import PassVault.Core.Model
import PassVault.Storage.VaultFileWatcher

/-!
# Stopping a watcher

`VaultFileWatcher` of `packages/storage-node/src/vaultFile.ts` from `start` on, with `stop`. What
chokidar does between `close()` and the end of the promise it returns is left open: it may still
report an event; after that it reports none.
-/

namespace PassVault

open Machine

/-- The delivery has called `onChange`. -/
def DeliveryStage.calling {β : Type} : DeliveryStage β → Bool
  | .reporting _ => true
  | _ => false

theorem DeliveryStage.calling_iff {β : Type} {stage : DeliveryStage β} :
    stage.calling = true ↔ ∃ content, stage = .reporting content := by
  cases stage <;> simp [calling]

/-- `watcher` says that `this.watcher` is defined. `closing` counts the calls of `stop` that wait
for `close()`; `stopped` says that the promise of one has resolved. -/
structure StoppableWatcher where
  watcher : Bool
  closing : Nat
  stopped : Bool
  inner : VaultFileWatcher Bytes
deriving DecidableEq, Repr

inductive StoppableAction where
  | runs (action : WatcherAction Bytes)
  | stop
  /-- `close()` has resolved, and with it the promise of a `stop`. -/
  | closeEnds
deriving DecidableEq, Repr

namespace StoppableWatcher

def started : StoppableWatcher := ⟨true, 0, false, .started⟩

/-- Nobody polls a watcher whose `stop` has resolved. -/
def takes (w : StoppableWatcher) : WatcherAction Bytes → Bool
  | .event => w.watcher
  | .pollNow => !w.stopped
  | _ => true

/-- `stop` up to its await. -/
def stop (w : StoppableWatcher) : StoppableWatcher :=
  { w with inner := { w.inner with timer := false }, closing := w.closing + 1 }

def step (w : StoppableWatcher) : StoppableAction → Option StoppableWatcher
  | .runs action =>
    if w.takes action then (w.inner.step action).map fun inner => { w with inner } else none
  | .stop => some w.stop
  | .closeEnds =>
    if 0 < w.closing then some { w with watcher := false, closing := w.closing - 1, stopped := true }
    else none

/-- The bytes that an action passes to `onChange`. -/
def reports : StoppableAction → Option Bytes
  | .runs (.readEnds bytes) => bytes
  | _ => none

/-- Nothing can come of it any more: no timer is armed, and a delivery under way has called
`onChange` already and is not to be repeated. -/
structure Settled (w : StoppableWatcher) : Prop where
  timer : w.inner.timer = false
  running : ∀ began stage, w.inner.running = some (began, stage) →
    w.inner.pending = false ∧ ∃ content, stage = .reporting content

/-- The flags of `deliver` say what runs, and `stopped` that chokidar is closed. -/
structure Flags (w : StoppableWatcher) : Prop where
  processing : w.inner.processing = w.inner.running.isSome
  pending : w.inner.pending = true → w.inner.processing = true
  stopped : w.stopped = true → w.watcher = false

theorem flags_started : started.Flags := ⟨rfl, nofun, nofun⟩

theorem deliver_flags {w : VaultFileWatcher Bytes} (h : w.processing = w.running.isSome) :
    w.deliver.processing = w.deliver.running.isSome ∧
      (w.deliver.pending = true → w.deliver.processing = true) := by
  unfold VaultFileWatcher.deliver
  by_cases hprocessing : w.processing = true
  · simp only [if_pos hprocessing]
    exact ⟨h, fun _ => hprocessing⟩
  · simp only [if_neg hprocessing]
    exact ⟨rfl, fun _ => trivial⟩

theorem finish_flags (w : VaultFileWatcher Bytes) (began : Nat) (outcome : DeliveryOutcome Bytes) :
    (w.finish began outcome).running = none ∧ (w.finish began outcome).processing = false ∧
      (w.finish began outcome).pending = false ∧
      (w.finish began outcome).timer = (w.timer || w.pending) := by
  unfold VaultFileWatcher.finish
  dsimp only
  by_cases hpending : w.pending = true
  · simp only [if_pos hpending]
    simp [VaultFileWatcher.schedule, hpending]
  · simp only [if_neg hpending]
    simp [hpending]

/-- What an action of the watcher itself does with a delivery. -/
inductive Moves (w : VaultFileWatcher Bytes) : WatcherAction Bytes → VaultFileWatcher Bytes → Prop
  where
  | event {events : Nat} : Moves w .event { w with events, timer := true }
  | timerFires (h : w.timer = true) : Moves w .timerFires { w with timer := false }.deliver
  | pollNow : Moves w .pollNow w.deliver
  | goesOn {action : WatcherAction Bytes} {began : Nat} {stage stage' : DeliveryStage Bytes}
      (h : w.running = some (began, stage)) (hstage : ∀ content, stage ≠ .reporting content) :
      Moves w action { w with running := some (began, stage') }
  | ends {action : WatcherAction Bytes} {began : Nat} {stage : DeliveryStage Bytes}
      {outcome : DeliveryOutcome Bytes} (h : w.running = some (began, stage)) :
      Moves w action (w.finish began outcome)

theorem moves_of_step {w w' : VaultFileWatcher Bytes} {action : WatcherAction Bytes}
    (h : w.step action = some w') : Moves w action w' := by
  cases action with
  | event =>
    cases h
    exact .event
  | timerFires =>
    rw [VaultFileWatcher.step, Option.ite_none_right_eq_some] at h
    obtain ⟨htimer, h⟩ := h
    cases h
    exact .timerFires htimer
  | pollNow =>
    cases h
    exact .pollNow
  | readEnds bytes =>
    simp only [VaultFileWatcher.step] at h
    split at h <;> cases h
    · rename_i hrunning
      exact .goesOn hrunning (by simp)
    · rename_i hrunning
      exact .goesOn hrunning (by simp)
    · rename_i hrunning
      exact .goesOn hrunning (by simp)
    · rename_i hrunning
      exact .ends hrunning
  | delayEnds =>
    simp only [VaultFileWatcher.step] at h
    split at h <;> cases h
    rename_i hrunning
    exact .goesOn hrunning (by simp)
  | onChangeEnds rejects =>
    simp only [VaultFileWatcher.step] at h
    split at h <;> cases h
    rename_i hrunning
    exact .ends hrunning

/-- A read that passes bytes on was under way. -/
theorem reading_of_step {w w' : VaultFileWatcher Bytes} {bytes : Bytes}
    (h : w.step (.readEnds (some bytes)) = some w') :
    ∃ began stage, w.running = some (began, stage) ∧ ∀ content, stage ≠ .reporting content := by
  simp only [VaultFileWatcher.step] at h
  split at h
  · rename_i hrunning _
    exact ⟨_, _, hrunning, by simp⟩
  · rename_i hrunning _
    exact ⟨_, _, hrunning, by simp⟩
  · rename_i hbytes
    cases hbytes
  · rename_i hbytes
    cases hbytes
  · cases h

theorem step_runs {w w' : StoppableWatcher} {action : WatcherAction Bytes}
    (h : w.step (.runs action) = some w') : w.takes action = true ∧
      ∃ inner, w.inner.step action = some inner ∧ w' = { w with inner } := by
  rw [step, Option.ite_none_right_eq_some] at h
  obtain ⟨htakes, h⟩ := h
  obtain ⟨inner, hinner, hw'⟩ := Option.map_eq_some_iff.mp h
  exact ⟨htakes, inner, hinner, hw'.symm⟩

theorem step_flags {w w' : StoppableWatcher} {action : StoppableAction}
    (h : w.step action = some w') (hw : w.Flags) : w'.Flags := by
  cases action with
  | runs action =>
    obtain ⟨-, inner, hinner, rfl⟩ := step_runs h
    cases moves_of_step hinner with
    | event => exact ⟨hw.processing, hw.pending, hw.stopped⟩
    | timerFires =>
      obtain ⟨hprocessing, hpending⟩ := deliver_flags (w := { w.inner with timer := false })
        hw.processing
      exact ⟨hprocessing, hpending, hw.stopped⟩
    | pollNow =>
      obtain ⟨hprocessing, hpending⟩ := deliver_flags hw.processing
      exact ⟨hprocessing, hpending, hw.stopped⟩
    | goesOn hrunning =>
      constructor
      · rw [hw.processing, hrunning]
        rfl
      · exact hw.pending
      · exact hw.stopped
    | @ends _ began _ outcome =>
      obtain ⟨hrunning, hprocessing, hpending, -⟩ := finish_flags w.inner began outcome
      constructor
      · rw [hrunning, hprocessing]
        rfl
      · intro h
        rw [hpending] at h
        cases h
      · exact hw.stopped
  | stop =>
    cases h
    exact ⟨hw.processing, hw.pending, hw.stopped⟩
  | closeEnds =>
    rw [step, Option.ite_none_right_eq_some] at h
    obtain ⟨-, h⟩ := h
    cases h
    exact ⟨hw.processing, hw.pending, fun _ => rfl⟩

theorem play_flags {w : StoppableWatcher} {actions : List StoppableAction}
    (h : play step started actions = some w) : w.Flags :=
  play_keeps (P := Flags) (fun _ _ _ _ hw h => step_flags h hw) h flags_started

/-- Only the end of `close()` makes a watcher stopped, and leaves the rest as it is. -/
theorem step_stopped {w w' : StoppableWatcher} {action : StoppableAction}
    (h : w.step action = some w') :
    w'.stopped = w.stopped ∨ (action = .closeEnds ∧ w'.stopped = true ∧ w'.inner = w.inner) := by
  cases action with
  | runs action =>
    obtain ⟨-, inner, -, rfl⟩ := step_runs h
    exact .inl rfl
  | stop =>
    cases h
    exact .inl rfl
  | closeEnds =>
    rw [step, Option.ite_none_right_eq_some] at h
    obtain ⟨-, h⟩ := h
    cases h
    exact .inr ⟨rfl, rfl, rfl⟩

theorem Settled.of_inner {w w' : StoppableWatcher} (h : w.Settled) (hinner : w'.inner = w.inner) :
    w'.Settled := by
  constructor
  · rw [hinner]
    exact h.timer
  · rw [hinner]
    exact h.running

/-- A stopped watcher that has settled stays so, and reports nothing. -/
theorem step_settled {w w' : StoppableWatcher} {action : StoppableAction} (hw : w.Flags)
    (hstopped : w.stopped = true) (hsettled : w.Settled) (h : w.step action = some w') :
    w'.Settled ∧ w'.stopped = true ∧ reports action = none := by
  cases action with
  | runs action =>
    obtain ⟨htakes, inner, hinner, rfl⟩ := step_runs h
    have hquiet : reports (.runs action) = none := by
      cases action with
      | readEnds bytes =>
        cases bytes with
        | none => rfl
        | some bytes =>
          obtain ⟨began, stage, hrunning, hstage⟩ := reading_of_step hinner
          obtain ⟨-, content, hcontent⟩ := hsettled.running began stage hrunning
          exact absurd hcontent (hstage content)
      | _ => rfl
    refine ⟨?_, hstopped, hquiet⟩
    cases moves_of_step hinner with
    | event =>
      rw [takes, hw.stopped hstopped] at htakes
      cases htakes
    | timerFires htimer =>
      rw [hsettled.timer] at htimer
      cases htimer
    | pollNow =>
      rw [takes, hstopped] at htakes
      cases htakes
    | goesOn hrunning hstage =>
      obtain ⟨-, content, hcontent⟩ := hsettled.running _ _ hrunning
      exact absurd hcontent (hstage content)
    | @ends _ began _ outcome hrunning =>
      obtain ⟨hnone, -, -, htimer⟩ := finish_flags w.inner began outcome
      obtain ⟨hpending, -⟩ := hsettled.running _ _ hrunning
      constructor
      · rw [htimer, hsettled.timer, hpending]
        rfl
      · intro began stage h
        rw [hnone] at h
        cases h
  | stop =>
    cases h
    exact ⟨⟨rfl, hsettled.running⟩, hstopped, rfl⟩
  | closeEnds =>
    rw [step, Option.ite_none_right_eq_some] at h
    obtain ⟨-, h⟩ := h
    cases h
    exact ⟨⟨hsettled.timer, hsettled.running⟩, rfl, rfl⟩

/-- The watcher can come to pass bytes to `onChange`, without another event. -/
def CanReport (w : StoppableWatcher) : Prop :=
  ∃ (actions : List (WatcherAction Bytes)) (w' : StoppableWatcher) (bytes : Bytes)
    (w'' : StoppableWatcher), play step w (actions.map .runs) = some w' ∧
    step w' (.runs (.readEnds (some bytes))) = some w''

theorem CanReport.after {w v : StoppableWatcher} {action : WatcherAction Bytes}
    (h : v.CanReport) (hstep : w.step (.runs action) = some v) : w.CanReport := by
  obtain ⟨actions, w', bytes, w'', hplay, hreport⟩ := h
  refine ⟨action :: actions, w', bytes, w'', ?_, hreport⟩
  rw [List.map_cons, play, hstep]
  exact hplay

theorem step_runs_eq {w : StoppableWatcher} {action : WatcherAction Bytes}
    {inner : VaultFileWatcher Bytes} (htakes : w.takes action = true)
    (h : w.inner.step action = some inner) : w.step (.runs action) = some { w with inner } := by
  rw [step, if_pos htakes, h]
  rfl

theorem canReport_reading {w : StoppableWatcher} {began seen : Nat}
    (h : w.inner.running = some (began, .reading seen) ∨
      w.inner.running = some (began, .rereading seen)) : w.CanReport := by
  have hread : w.inner.step (.readEnds (some [])) =
      some { w.inner with running := some (began, .reporting ⟨[], seen⟩) } := by
    rcases h with h | h <;> simp [VaultFileWatcher.step, h]
  exact ⟨[], w, [], _, rfl, step_runs_eq rfl hread⟩

/-- A delivery that has not called `onChange` yet can call it. -/
theorem canReport_running {w : StoppableWatcher} {began : Nat} {stage : DeliveryStage Bytes}
    (h : w.inner.running = some (began, stage)) (hstage : ∀ content, stage ≠ .reporting content) :
    w.CanReport := by
  cases stage with
  | reading seen => exact canReport_reading (.inl h)
  | rereading seen => exact canReport_reading (.inr h)
  | delayed =>
    have hdelay : w.inner.step .delayEnds =
        some { w.inner with running := some (began, .rereading w.inner.events) } := by
      simp [VaultFileWatcher.step, h]
    exact (canReport_reading (.inr rfl)).after (step_runs_eq rfl hdelay)
  | reporting content => exact absurd rfl (hstage content)

/-- An armed timer can fire, and the file can be read. -/
theorem canReport_timer {w : StoppableWatcher} (htimer : w.inner.timer = true)
    (hprocessing : w.inner.processing = false) : w.CanReport := by
  have hfires : w.inner.step .timerFires = some { w.inner with timer := false }.deliver := by
    rw [VaultFileWatcher.step, if_pos htimer]
  have hdeliver : ({ w.inner with timer := false } : VaultFileWatcher Bytes).deliver =
      { w.inner with
        timer := false
        processing := true
        running := some (w.inner.events, .reading w.inner.events) } := by
    simp [VaultFileWatcher.deliver, hprocessing]
  rw [hdeliver] at hfires
  exact (canReport_reading (.inl rfl)).after (step_runs_eq rfl hfires)

/-- A handler can end, and the delivery is repeated if that is wanted. -/
theorem canReport_handler {w : StoppableWatcher} {began : Nat} {content : VaultContent Bytes}
    (h : w.inner.running = some (began, .reporting content))
    (hagain : (w.inner.timer || w.inner.pending) = true) : w.CanReport := by
  have hends : w.inner.step (.onChangeEnds false) =
      some (w.inner.finish began (.completed content)) := by
    simp [VaultFileWatcher.step, h]
  obtain ⟨-, hprocessing, -, htimer⟩ := finish_flags w.inner began (.completed content)
  have hreport : CanReport { w with inner := w.inner.finish began (.completed content) } := by
    apply canReport_timer
    · rw [htimer, hagain]
    · exact hprocessing
  exact hreport.after (step_runs_eq rfl hends)

theorem canReport_of_unsettled {w : StoppableWatcher} (hw : w.Flags) (h : ¬ w.Settled) :
    w.CanReport := by
  cases hrunning : w.inner.running with
  | none =>
    have htimer : w.inner.timer = true := by
      by_contra hoff
      apply h
      constructor
      · simpa using hoff
      · intro began stage hsome
        rw [hrunning] at hsome
        cases hsome
    have hprocessing : w.inner.processing = false := by
      rw [hw.processing, hrunning]
      rfl
    exact canReport_timer htimer hprocessing
  | some delivery =>
    obtain ⟨began, stage⟩ := delivery
    by_cases hstage : ∃ content, stage = .reporting content
    · obtain ⟨content, rfl⟩ := hstage
      apply canReport_handler hrunning
      by_contra hagain
      rw [Bool.not_eq_true, Bool.or_eq_false_iff] at hagain
      apply h
      constructor
      · exact hagain.1
      · intro began' stage' hsome
        rw [hrunning] at hsome
        cases hsome
        exact ⟨hagain.2, content, rfl⟩
    · apply canReport_running hrunning
      intro content hcontent
      exact hstage ⟨content, hcontent⟩

end StoppableWatcher

end PassVault
