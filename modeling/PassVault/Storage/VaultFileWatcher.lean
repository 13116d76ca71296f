import PassVault.Lib.Machine

/-!
# The watcher of a vault file

`VaultFileWatcher` of `packages/storage-node/src/vaultFile.ts` from `start` on, as long as it is
not stopped. The file holds whatever a read finds; a read, an `onChange` and the clock end when
they do.
-/

namespace PassVault

open Machine

/-- What a read found. `seen` is how many events there had been when the read began. -/
structure VaultContent (β : Type) where
  bytes : β
  seen : Nat
deriving DecidableEq, Repr

/-- Where a run of `deliver` waits. -/
inductive DeliveryStage (β : Type) where
  | reading (seen : Nat)
  /-- The 120 ms after a read that failed. -/
  | delayed
  | rereading (seen : Nat)
  | reporting (content : VaultContent β)
deriving DecidableEq, Repr

def DeliveryStage.seen? {β : Type} : DeliveryStage β → Option Nat
  | .reading seen | .rereading seen => some seen
  | .delayed => none
  | .reporting content => some content.seen

inductive DeliveryOutcome (β : Type) where
  /-- `readWithRetry` returned `undefined`. -/
  | unread
  /-- `onChange` threw, and `onError` has been told. -/
  | rejected (content : VaultContent β)
  | completed (content : VaultContent β)
deriving DecidableEq, Repr

/-- A run of `deliver` that has ended. `began` is how many events there had been before it. -/
structure FileDelivery (β : Type) where
  began : Nat
  outcome : DeliveryOutcome β
deriving DecidableEq, Repr

def DeliveryOutcome.completed? {β : Type} : DeliveryOutcome β → Option (VaultContent β)
  | .completed content => some content
  | .unread | .rejected _ => none

/-- `timer` says that it is armed. `events` and `ended`, the last delivery first, are kept for what
is said about runs: the code never reads them. -/
structure VaultFileWatcher (β : Type) where
  timer : Bool
  processing : Bool
  pending : Bool
  running : Option (Nat × DeliveryStage β)
  events : Nat
  ended : List (FileDelivery β)
deriving DecidableEq, Repr

inductive WatcherAction (β : Type) where
  /-- chokidar reports an add, a change or an unlink. -/
  | event
  | timerFires
  | pollNow
  /-- The read under way ends, with the bytes of the file or with an error. -/
  | readEnds (bytes : Option β)
  | delayEnds
  | onChangeEnds (rejects : Bool)
deriving DecidableEq, Repr

namespace VaultFileWatcher

variable {β : Type}

def started : VaultFileWatcher β := ⟨false, false, false, none, 0, []⟩

/-- A timer that is armed is cleared first. -/
def schedule (w : VaultFileWatcher β) : VaultFileWatcher β := { w with timer := true }

/-- `deliver` up to its first await. -/
def deliver (w : VaultFileWatcher β) : VaultFileWatcher β :=
  if w.processing then { w with pending := true }
  else { w with processing := true, running := some (w.events, .reading w.events) }

/-- The `finally` of `deliver`. -/
def finish (began : Nat) (outcome : DeliveryOutcome β) (w : VaultFileWatcher β) :
    VaultFileWatcher β :=
  let w := { w with processing := false, running := none, ended := ⟨began, outcome⟩ :: w.ended }
  if w.pending then { w with pending := false }.schedule else w

def step (w : VaultFileWatcher β) : WatcherAction β → Option (VaultFileWatcher β)
  | .event => some { w with events := w.events + 1 }.schedule
  | .timerFires => if w.timer then some { w with timer := false }.deliver else none
  | .pollNow => some w.deliver
  | .readEnds bytes =>
    match w.running, bytes with
    | some (began, .reading seen), some bytes
    | some (began, .rereading seen), some bytes =>
      some { w with running := some (began, .reporting ⟨bytes, seen⟩) }
    | some (began, .reading _), none => some { w with running := some (began, .delayed) }
    | some (began, .rereading _), none => some (w.finish began .unread)
    | _, _ => none
  | .delayEnds =>
    match w.running with
    | some (began, .delayed) => some { w with running := some (began, .rereading w.events) }
    | _ => none
  | .onChangeEnds rejects =>
    match w.running with
    | some (began, .reporting content) =>
      some (w.finish began (if rejects then .rejected content else .completed content))
    | _ => none

/-- No timer is armed and no delivery runs. -/
structure Quiescent (w : VaultFileWatcher β) : Prop where
  timer : w.timer = false
  running : w.running = none

instance (w : VaultFileWatcher β) : Decidable w.Quiescent :=
  decidable_of_iff (w.timer = false ∧ w.running = none) ⟨fun h => ⟨h.1, h.2⟩, fun h => ⟨h.1, h.2⟩⟩

/-- The last content passed to an `onChange` that completed. -/
def lastReported (w : VaultFileWatcher β) : Option (VaultContent β) :=
  w.ended.findSome? (·.outcome.completed?)

/-- It was read after the last event. -/
def UpToDate (w : VaultFileWatcher β) : Prop := ∃ content ∈ w.lastReported, content.seen = w.events

instance (w : VaultFileWatcher β) : Decidable w.UpToDate :=
  match h : w.lastReported with
  | none => .isFalse fun ⟨_, hmem, _⟩ => by cases h.symm.trans hmem
  | some content => decidable_of_iff (content.seen = w.events) (by simp [UpToDate, h])

/-! ## Deliveries -/

/-- How many events there had been before the last delivery that began. -/
def lastBegan (w : VaultFileWatcher β) : Option Nat :=
  match w.running with
  | some (began, _) => some began
  | none => w.ended.head?.map (·.began)

/-- What is known of a read of a delivery. -/
def Between (began events seen : Nat) : Prop := began ≤ seen ∧ seen ≤ events

theorem Between.later {began events events' seen : Nat} (h : Between began events seen)
    (hle : events ≤ events') : Between began events' seen := ⟨h.1, Nat.le_trans h.2 hle⟩

/-- The flags say what runs, and a delivery reads after it has begun. -/
structure Consistent (w : VaultFileWatcher β) : Prop where
  processing : w.processing = w.running.isSome
  pending : w.pending = true → w.processing = true
  running : ∀ began stage, w.running = some (began, stage) →
    began ≤ w.events ∧ ∀ seen ∈ stage.seen?, Between began w.events seen
  ended : ∀ delivery ∈ w.ended, ∀ content ∈ delivery.outcome.completed?,
    Between delivery.began w.events content.seen

/-- A delivery is to begin, or the last one has begun after the last event. -/
def Covered (w : VaultFileWatcher β) : Prop :=
  0 < w.events → w.timer = true ∨ w.pending = true ∨ w.lastBegan = some w.events

theorem consistent_started : (started (β := β)).Consistent :=
  ⟨rfl, nofun, nofun, nofun⟩

theorem Consistent.event {w : VaultFileWatcher β} (hw : w.Consistent) :
    { w with events := w.events + 1 }.schedule.Consistent where
  processing := hw.processing
  pending := hw.pending
  running began stage h :=
    have ⟨hle, hseen⟩ := hw.running began stage h
    ⟨Nat.le_succ_of_le hle, fun seen hmem => (hseen seen hmem).later (Nat.le_succ _)⟩
  ended delivery hmem content hcontent :=
    (hw.ended delivery hmem content hcontent).later (Nat.le_succ _)

theorem Consistent.deliver {w : VaultFileWatcher β} (hw : w.Consistent) :
    w.deliver.Consistent ∧ w.deliver.Covered := by
  unfold VaultFileWatcher.deliver
  split
  · rename_i hprocessing
    exact ⟨⟨hw.processing, fun _ => hprocessing, hw.running, hw.ended⟩, fun _ => .inr (.inl rfl)⟩
  · refine ⟨⟨rfl, fun _ => rfl, fun began stage h => ?_, hw.ended⟩, fun _ => .inr (.inr rfl)⟩
    cases h
    refine ⟨Nat.le_refl _, fun seen hseen => ?_⟩
    cases hseen
    exact ⟨Nat.le_refl _, Nat.le_refl _⟩

/-- A delivery that ends leaves its successor scheduled where one is wanted. -/
theorem Consistent.finish {w : VaultFileWatcher β} {began : Nat} {stage : DeliveryStage β}
    {outcome : DeliveryOutcome β} (hw : w.Consistent) (hcovered : w.Covered)
    (hrunning : w.running = some (began, stage))
    (hseen : ∀ content ∈ outcome.completed?, Between began w.events content.seen) :
    (w.finish began outcome).Consistent ∧ (w.finish began outcome).Covered := by
  have hended : ∀ delivery ∈ ⟨began, outcome⟩ :: w.ended,
      ∀ content ∈ delivery.outcome.completed?, Between delivery.began w.events content.seen :=
    List.forall_mem_cons.mpr ⟨hseen, hw.ended⟩
  unfold VaultFileWatcher.finish
  dsimp only
  split
  · exact ⟨⟨rfl, nofun, nofun, hended⟩, fun _ => .inl rfl⟩
  · rename_i hpending
    refine ⟨⟨rfl, fun h => (hpending h).elim, nofun, hended⟩, fun hevents => ?_⟩
    rcases hcovered hevents with htimer | h | hlast
    · exact .inl htimer
    · exact (hpending h).elim
    · refine .inr (.inr ?_)
      rw [lastBegan, hrunning] at hlast
      exact hlast

/-- The delivery under way goes on. -/
theorem Consistent.proceed {w : VaultFileWatcher β} {began : Nat} {stage stage' : DeliveryStage β}
    (hw : w.Consistent) (hcovered : w.Covered) (hrunning : w.running = some (began, stage))
    (hseen : ∀ seen ∈ stage'.seen?, Between began w.events seen) :
    { w with running := some (began, stage') }.Consistent ∧
      { w with running := some (began, stage') }.Covered := by
  refine ⟨⟨?_, hw.pending, fun began' stage'' h => ?_, hw.ended⟩, fun hevents => ?_⟩
  · rw [hw.processing, hrunning]
    rfl
  · cases h
    exact ⟨(hw.running began stage hrunning).1, hseen⟩
  · have hlast := hcovered hevents
    rw [lastBegan, hrunning] at hlast
    exact hlast

theorem step_consistent {w w' : VaultFileWatcher β} {action : WatcherAction β}
    (h : step w action = some w') (hw : w.Consistent ∧ w.Covered) :
    w'.Consistent ∧ w'.Covered := by
  obtain ⟨hw, hcovered⟩ := hw
  cases action with
  | event =>
    cases h
    exact ⟨hw.event, fun _ => .inl rfl⟩
  | timerFires =>
    rw [step, Option.ite_none_right_eq_some] at h
    obtain ⟨-, h⟩ := h
    cases h
    have hoff : { w with timer := false }.Consistent :=
      ⟨hw.processing, hw.pending, hw.running, hw.ended⟩
    exact hoff.deliver
  | pollNow =>
    cases h
    exact hw.deliver
  | readEnds bytes =>
    simp only [step] at h
    split at h <;> cases h
    · rename_i began seen _ hrunning
      exact hw.proceed hcovered hrunning (hw.running began _ hrunning).2
    · rename_i began seen _ hrunning
      exact hw.proceed hcovered hrunning (hw.running began _ hrunning).2
    · rename_i hrunning
      exact hw.proceed hcovered hrunning nofun
    · rename_i hrunning
      exact hw.finish hcovered hrunning nofun
  | delayEnds =>
    simp only [step] at h
    split at h <;> cases h
    rename_i began hrunning
    apply hw.proceed hcovered hrunning
    intro seen hseen
    cases hseen
    exact ⟨(hw.running began _ hrunning).1, Nat.le_refl _⟩
  | onChangeEnds rejects =>
    simp only [step] at h
    split at h <;> cases h
    rename_i began content hrunning
    apply hw.finish hcovered hrunning
    intro content' hcontent
    cases rejects with
    | true => cases hcontent
    | false =>
      cases hcontent
      exact (hw.running began _ hrunning).2 _ rfl

theorem play_consistent {w : VaultFileWatcher β} {actions : List (WatcherAction β)}
    (h : play step started actions = some w) : w.Consistent ∧ w.Covered :=
  play_keeps (P := fun w => w.Consistent ∧ w.Covered)
    (fun _ _ _ _ hw h => step_consistent h hw) h ⟨consistent_started, nofun⟩

/-- **No save is lost but to two failed reads or a failed handler.** Once a watcher comes to rest
after an event, its last delivery has begun after the last event; the last content that an
`onChange` took was read after it too, or that delivery gave up after two reads that failed, or
its `onChange` threw. -/
theorem quiescent_upToDate {w : VaultFileWatcher β} {actions : List (WatcherAction β)}
    (h : play step started actions = some w) (hquiescent : w.Quiescent) (hevent : 0 < w.events) :
    ∃ last ∈ w.ended.head?, last.began = w.events ∧
      (w.UpToDate ∨ last.outcome = .unread ∨ ∃ content, last.outcome = .rejected content) := by
  obtain ⟨hw, hcovered⟩ := play_consistent h
  have hlast : w.ended.head?.map (·.began) = some w.events := by
    rcases hcovered hevent with htimer | hpending | hlast
    · exact absurd (hquiescent.timer.symm.trans htimer) Bool.false_ne_true
    · have hprocessing := hw.processing.symm.trans (hw.pending hpending)
      rw [hquiescent.running] at hprocessing
      exact absurd hprocessing Bool.false_ne_true
    · rw [lastBegan, hquiescent.running] at hlast
      exact hlast
  obtain ⟨last, hhead, hbegan⟩ := Option.map_eq_some_iff.mp hlast
  obtain ⟨earlier, hended⟩ := List.head?_eq_some_iff.mp hhead
  refine ⟨last, hhead, hbegan, ?_⟩
  cases houtcome : last.outcome with
  | unread => exact .inr (.inl rfl)
  | rejected content => exact .inr (.inr ⟨content, rfl⟩)
  | completed content =>
    have hcompleted : last.outcome.completed? = some content := by rw [houtcome]; rfl
    have hmem : last ∈ w.ended := hended ▸ List.mem_cons_self
    have hbetween := hw.ended last hmem content hcompleted
    refine .inl ⟨content, ?_, Nat.le_antisymm hbetween.2 (hbegan ▸ hbetween.1)⟩
    rw [lastReported, hended, List.findSome?_cons, hcompleted]
    rfl

/-- A save that arrives while the one before it is being handled, and is read again after a
rename. -/
def twoSaves : List (WatcherAction Nat) :=
  [.event, .event, .timerFires, .readEnds (some 1), .event, .timerFires, .pollNow,
    .onChangeEnds false, .timerFires, .readEnds none, .delayEnds, .readEnds (some 2),
    .onChangeEnds false]

theorem quiescent_upToDate_twoSaves :
    ∃ w, play step started twoSaves = some w ∧ w.Quiescent ∧
      w.lastReported = some ⟨2, 3⟩ ∧ ∃ last ∈ w.ended.head?, last.began = 3 ∧
        (w.UpToDate ∨ last.outcome = .unread ∨ ∃ content, last.outcome = .rejected content) := by
  have hplay : play step started twoSaves = some
      ⟨false, false, false, none, 3, [⟨3, .completed ⟨2, 3⟩⟩, ⟨2, .completed ⟨1, 2⟩⟩]⟩ := rfl
  exact ⟨_, hplay, ⟨rfl, rfl⟩, rfl, quiescent_upToDate hplay ⟨rfl, rfl⟩ (by decide)⟩

/-- The second save is reported to nobody when both reads meet a rename, and forgotten when its
`onChange` throws, though the file can be read from then on. -/
theorem saves_lost :
    ∃ unread rejected : VaultFileWatcher Nat,
      play step started [.event, .timerFires, .readEnds (some 1), .onChangeEnds false, .event,
        .timerFires, .readEnds none, .delayEnds, .readEnds none] = some unread ∧
      unread.Quiescent ∧ unread.events = 2 ∧ ¬ unread.UpToDate ∧
      play step started [.event, .timerFires, .readEnds (some 1), .onChangeEnds false, .event,
        .timerFires, .readEnds (some 2), .onChangeEnds true] = some rejected ∧
      rejected.Quiescent ∧ rejected.events = 2 ∧ ¬ rejected.UpToDate :=
  ⟨_, _, rfl, ⟨rfl, rfl⟩, rfl, by decide, rfl, ⟨rfl, rfl⟩, rfl, by decide⟩

end VaultFileWatcher

end PassVault
