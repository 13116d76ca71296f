import PassVault.Sync.Peer

/-!
# How a session ends

`run` waits for messages with a timer, but not for acks, for outstanding revisions or for the
bulk channel. A session whose inbox has failed, or whose peer has completed, is therefore only
sure to end when that happened at a time when none of these waits is under way or still to come.
-/

namespace PassVault

open Async

namespace Session

/-- No unbounded wait is under way, and serving will start none. -/
structure Exchanged (s : Session) : Prop where
  unsent : s.unsent = false
  ack : ∀ id, s.ack ≠ .waiting id
  drain : s.drain ≠ .waiting

/-- `want-revisions` has come, and `run` has not taken it yet. -/
def HasWants (s : Session) (ids : List RevisionId) : Prop :=
  ∃ vaultId, s.waiting = .settled (.ok (.wantRevisions vaultId ids))

/-- The inbox may fail: before `want-revisions` has come, or when everything was exchanged or
nothing was requested on either side. -/
def MayFail (s : Session) : Prop :=
  s.outcome = none → s.Exchanged ∧
    (s.drain = .idle → ∀ ids, s.HasWants ids → ids = [] ∧ s.expected = [])

/-- `sync-complete` may come: when everything the peer asked for was sent and acknowledged, and
either the wait for outstanding revisions has begun or nothing was requested on either side. -/
def MayComplete (s : Session) : Prop :=
  s.outcome = none → s.unsent = false ∧ (∀ id, s.ack ≠ .waiting id) ∧
    (s.drain = .idle → s.expected = [] ∧ s.HasWants [])

end Session

/-- The condition on what is delivered to a session. -/
def Timely (s : Peer) : PeerEvent → Prop
  | .delivered (.error _) => s.session.MayFail
  | .delivered (.ok (.error _ _)) => s.session.MayFail
  | .delivered (.ok (.revisionHeader _)) => s.session.remoteDeviceId = none → s.session.MayFail
  | .delivered (.ok (.syncComplete _)) => s.session.MayComplete
  | .closed => s.session.MayFail
  | _ => True

/-- A session that its peer or its inbox has ended, with nothing left that could settle `run`. -/
structure Stuck (deps : EngineDeps) (w : Pool Peer PeerEvent Failure) : Prop where
  ended : w.state.session.failure.isSome = true ∨ w.state.session.peerCompleted = true
  quiet : ∀ move, Internal move → w.step (peerSystem deps) move = none
  untimed : w.state.session.timerArmed = false
  unsettled : ∃ ready next, w.tasks[0]? = some (.await ready next)

namespace SessionEnd

/-! ## The invariant -/

/-- A session that has failed, or whose peer has completed, starts no unbounded wait. -/
structure Bounded (s : Session) : Prop where
  rejected : s.failure.isSome = true → ∀ type, s.waiting ≠ .expecting type
  failed : s.failure.isSome = true → s.MayFail
  completed : s.peerCompleted = true → s.outcome = none → s.Exchanged ∧
    (s.drain = .idle → s.expected = [] ∧ (s.waiting = .idle ∨ s.HasWants []))

inductive WaitStep : Waiting → Waiting → Prop where
  | same (w : Waiting) : WaitStep w w
  | failed (type : MessageType) (e : Failure) : WaitStep (.expecting type) (.settled (.error e))
  | message (m : Message) : WaitStep (.expecting m.type) (.settled (.ok m))
  | completed (outcome : Except Failure Message) : WaitStep .completing (.settled outcome)

inductive AckStep : AckWait → AckWait → Prop where
  | same (a : AckWait) : AckStep a a
  | acked (id : RevisionId) (accepted : Bool) (reason : Option String) :
      AckStep (.waiting id) (.settled accepted reason)

inductive DrainStep : Drain → Drain → Prop where
  | same (d : Drain) : DrainStep d d
  | resolved : DrainStep .waiting .resolved

def linkCount (s : Session) : Nat := s.ingested + s.ingesting.toNat + s.inboundWork.length

/-- What everything but `run` may do to a session. -/
structure ByOthers (s t : Session) : Prop where
  waiting : WaitStep s.waiting t.waiting
  ack : AckStep s.ack t.ack
  drain : DrainStep s.drain t.drain
  unsent : t.unsent = s.unsent
  outcome : t.outcome = s.outcome
  expected : s.expected = [] → t.expected = []
  completed : s.outcome = none → s.peerCompleted = false → t.peerCompleted = true →
    s.drain = .idle → t.HasWants []
  links : linkCount s ≤ linkCount t

theorem WaitStep.trans {u v w : Waiting} (h : WaitStep u v) (h' : WaitStep v w) :
    WaitStep u w := by
  cases h with
  | same => exact h'
  | failed type e =>
    cases h'
    exact .failed type e
  | message m =>
    cases h'
    exact .message m
  | completed outcome =>
    cases h'
    exact .completed outcome

theorem AckStep.trans {a b c : AckWait} (h : AckStep a b) (h' : AckStep b c) : AckStep a c := by
  cases h with
  | same => exact h'
  | acked id accepted reason =>
    cases h'
    exact .acked id accepted reason

theorem DrainStep.trans {a b c : Drain} (h : DrainStep a b) (h' : DrainStep b c) :
    DrainStep a c := by
  cases h with
  | same => exact h'
  | resolved =>
    cases h'
    exact .resolved

theorem DrainStep.idle_iff {d e : Drain} (h : DrainStep d e) : e = .idle ↔ d = .idle := by
  cases h <;> simp

theorem DrainStep.waiting_of {d e : Drain} (h : DrainStep d e) (he : e = .waiting) :
    d = .waiting := by
  cases h with
  | same => exact he
  | resolved => cases he

theorem WaitStep.of_settled {o : Except Failure Message} {w : Waiting}
    (h : WaitStep (.settled o) w) : w = .settled o := by
  cases h
  rfl

theorem WaitStep.of_idle {w : Waiting} (h : WaitStep .idle w) : w = .idle := by
  cases h
  rfl

namespace ByOthers

theorem refl (s : Session) : ByOthers s s where
  waiting := .same _
  ack := .same _
  drain := .same _
  unsent := rfl
  outcome := rfl
  expected h := h
  completed := by
    intro _ hs ht
    rw [hs] at ht
    cases ht
  links := Nat.le_refl _

theorem trans {s t u : Session} (h : ByOthers s t) (h' : ByOthers t u) : ByOthers s u where
  waiting := h.waiting.trans h'.waiting
  ack := h.ack.trans h'.ack
  drain := h.drain.trans h'.drain
  unsent := h'.unsent.trans h.unsent
  outcome := h'.outcome.trans h.outcome
  expected hs := h'.expected (h.expected hs)
  completed := by
    intro hrunning hs hu hdrain
    cases ht : t.peerCompleted with
    | true =>
      obtain ⟨vaultId, hwants⟩ := h.completed hrunning hs ht hdrain
      exact ⟨vaultId, (hwants ▸ h'.waiting).of_settled⟩
    | false => exact h'.completed (h.outcome ▸ hrunning) ht hu (h.drain.idle_iff.mpr hdrain)
  links := Nat.le_trans h.links h'.links

end ByOthers

/-! ## What the callbacks do -/

/-- A step in an inbound transfer. -/
structure Inbound (s t : Session) : Prop where
  failure : t.failure = s.failure
  waiting : t.waiting = s.waiting
  ack : t.ack = s.ack
  drain : DrainStep s.drain t.drain
  unsent : t.unsent = s.unsent
  outcome : t.outcome = s.outcome
  expected : s.expected = [] → t.expected = []
  completed : t.peerCompleted = s.peerCompleted
  links : linkCount s ≤ linkCount t

namespace Inbound

theorem refl (s : Session) : Inbound s s :=
  ⟨rfl, rfl, rfl, .same _, rfl, rfl, fun h => h, rfl, Nat.le_refl _⟩

theorem trans {s t u : Session} (h : Inbound s t) (h' : Inbound t u) : Inbound s u where
  failure := h'.failure.trans h.failure
  waiting := h'.waiting.trans h.waiting
  ack := h'.ack.trans h.ack
  drain := h.drain.trans h'.drain
  unsent := h'.unsent.trans h.unsent
  outcome := h'.outcome.trans h.outcome
  expected hs := h'.expected (h.expected hs)
  completed := h'.completed.trans h.completed
  links := Nat.le_trans h.links h'.links

theorem byOthers {s t : Session} (h : Inbound s t) : ByOthers s t where
  waiting := h.waiting ▸ .same _
  ack := h.ack ▸ .same _
  drain := h.drain
  unsent := h.unsent
  outcome := h.outcome
  expected := h.expected
  completed := by
    intro _ hs ht
    rw [h.completed, hs] at ht
    cases ht
  links := h.links

theorem exchanged {s t : Session} (h : Inbound s t) (hs : s.Exchanged) : t.Exchanged where
  unsent := h.unsent.trans hs.unsent
  ack id := h.ack ▸ hs.ack id
  drain ht := hs.drain (h.drain.waiting_of ht)

theorem hasWants {s t : Session} (h : Inbound s t) {ids : List RevisionId} :
    t.HasWants ids ↔ s.HasWants ids := by
  rw [Session.HasWants, Session.HasWants, h.waiting]

theorem bounded {s t : Session} (h : Inbound s t) (hs : Bounded s) : Bounded t where
  rejected ht := h.waiting ▸ hs.rejected (h.failure ▸ ht)
  failed := by
    intro ht hrunning
    obtain ⟨hexchanged, hwants⟩ := hs.failed (h.failure ▸ ht) (h.outcome ▸ hrunning)
    refine ⟨h.exchanged hexchanged, fun hdrain ids hids => ?_⟩
    obtain ⟨hnil, hexpected⟩ := hwants (h.drain.idle_iff.mp hdrain) ids (h.hasWants.mp hids)
    exact ⟨hnil, h.expected hexpected⟩
  completed := by
    intro ht hrunning
    obtain ⟨hexchanged, hidle⟩ := hs.completed (h.completed ▸ ht) (h.outcome ▸ hrunning)
    refine ⟨h.exchanged hexchanged, fun hdrain => ?_⟩
    obtain ⟨hexpected, hwaiting⟩ := hidle (h.drain.idle_iff.mp hdrain)
    exact ⟨h.expected hexpected, h.waiting ▸ hwaiting.imp_right h.hasWants.mpr⟩

theorem notifyProgress (s : Session) : Inbound s s.notifyProgress := by
  unfold Session.notifyProgress
  split
  · rename_i hdrain
    split
    · exact ⟨rfl, rfl, rfl, hdrain ▸ .resolved, rfl, rfl, fun h => h, rfl, Nat.le_refl _⟩
    · exact .refl s
  · exact .refl s

theorem dropExpected (id : RevisionId) (s : Session) : Inbound s (s.dropExpected id) := by
  refine ⟨rfl, rfl, rfl, .same _, rfl, rfl, fun h => ?_, rfl, Nat.le_refl _⟩
  simp [Session.dropExpected, h]

theorem reject (id : RevisionId) (reason : String) (s : Session) :
    Inbound s (s.reject id reason).1 :=
  (dropExpected id s).trans (notifyProgress _)

theorem accepted (id : RevisionId) (s : Session) : Inbound s (s.accepted id).1 := by
  have h : Inbound (s.dropExpected id) { s.dropExpected id with received := s.received ++ [id] } :=
    ⟨rfl, rfl, rfl, .same _, rfl, rfl, fun h => h, rfl, Nat.le_refl _⟩
  exact ((dropExpected id s).trans h).trans (notifyProgress _)

theorem dropAssembler (seq : Nat) (s : Session) : Inbound s (s.dropAssembler seq) :=
  ⟨rfl, rfl, rfl, .same _, rfl, rfl, fun h => h, rfl, Nat.le_refl _⟩

theorem queueIngest (header : InboundHeader) (bytes : Bytes) (s : Session) :
    Inbound s (s.queueIngest header bytes) := by
  refine ⟨rfl, rfl, rfl, .same _, rfl, rfl, fun h => h, rfl, ?_⟩
  simp only [linkCount, Session.queueIngest, List.length_append]
  omega

theorem onFrame (frame : ChunkFrame) (s : Session) : Inbound s (s.onFrame frame).1 := by
  unfold Session.onFrame
  split
  · split
    · exact ⟨rfl, rfl, rfl, .same _, rfl, rfl, fun h => h, rfl, Nat.le_refl _⟩
    · exact .refl s
  · split
    · exact (dropAssembler _ s).trans (reject _ _ _)
    · split
      · exact (dropAssembler _ s).trans (queueIngest _ _ _)
      · exact ⟨rfl, rfl, rfl, .same _, rfl, rfl, fun h => h, rfl, Nat.le_refl _⟩

theorem releaseOrphans (seq : Nat) (n : Nat) (s : Session) :
    Inbound s (s.releaseOrphans seq n).1 := by
  induction n generalizing s with
  | zero => exact .refl s
  | succ n ih =>
    unfold Session.releaseOrphans
    split
    · split
      · have h : Inbound s { s with orphanFrames := s.orphanFrames.eraseIdx n } :=
          ⟨rfl, rfl, rfl, .same _, rfl, rfl, fun h => h, rfl, Nat.le_refl _⟩
        exact (h.trans (onFrame _ _)).trans (ih _)
      · exact ih s
    · exact ih s

theorem onHeader (header : InboundHeader) (s : Session) : Inbound s (s.onHeader header).1 := by
  unfold Session.onHeader
  split
  · exact .refl s
  · rename_i assembler _
    have h : Inbound s (s.setAssembler header.header.transferSeq header assembler) :=
      ⟨rfl, rfl, rfl, .same _, rfl, rfl, fun h => h, rfl, Nat.le_refl _⟩
    exact h.trans (releaseOrphans _ _ _)

theorem onCancel (seq : Nat) (reason : String) (s : Session) :
    Inbound s (s.onCancel seq reason).1 := by
  unfold Session.onCancel
  split
  · exact .refl s
  · exact ((dropAssembler seq s).trans (dropExpected _ _)).trans (notifyProgress _)

theorem acceptBulk (frame : Bytes) (s : Session) : Inbound s (s.acceptBulk frame).1 := by
  unfold Session.acceptBulk
  split
  · exact onFrame _ _
  · exact .refl s

end Inbound

/-- A callback step: it leaves the invariant, and is within what `run` relies on. -/
structure Callback (s t : Session) : Prop where
  bounded : Bounded s → Bounded t
  byOthers : Bounded s → ByOthers s t

theorem Inbound.callback {s t : Session} (h : Inbound s t) : Callback s t :=
  ⟨h.bounded, fun _ => h.byOthers⟩

theorem callback_fail {s : Session} (e : Failure) (h : s.MayFail) : Callback s (s.fail e) := by
  have hwaiting : WaitStep s.waiting (s.fail e).waiting := by
    unfold Session.fail
    dsimp only
    split
    · rename_i hs
      rw [hs]
      exact .failed _ _
    · exact .same _
  have hwants : ∀ ids, (s.fail e).HasWants ids → s.HasWants ids := by
    rintro ids ⟨vaultId, hids⟩
    unfold Session.fail at hids
    dsimp only at hids
    split at hids
    · cases hids
    · exact ⟨vaultId, hids⟩
  refine ⟨fun hs => ⟨fun _ type => ?_, fun _ hrunning => ?_, fun hcompleted hrunning => ?_⟩,
    fun _ => ?_⟩
  · unfold Session.fail
    dsimp only
    split
    · exact fun h => by cases h
    · rename_i hnot
      exact hnot type
  · obtain ⟨hexchanged, hidle⟩ := h hrunning
    exact ⟨⟨hexchanged.unsent, hexchanged.ack, hexchanged.drain⟩, fun hdrain ids hids =>
      hidle hdrain ids (hwants ids hids)⟩
  · obtain ⟨hexchanged, hidle⟩ := hs.completed hcompleted hrunning
    refine ⟨⟨hexchanged.unsent, hexchanged.ack, hexchanged.drain⟩, fun hdrain => ?_⟩
    obtain ⟨hexpected, hw⟩ := hidle hdrain
    refine ⟨hexpected, ?_⟩
    rcases hw with hw | ⟨vaultId, hw⟩
    · rw [hw] at hwaiting
      exact .inl hwaiting.of_idle
    · rw [hw] at hwaiting
      exact .inr ⟨vaultId, hwaiting.of_settled⟩
  · exact ⟨hwaiting, .same _, .same _, rfl, rfl, fun h => h, fun _ hs ht => absurd ht (by simp [Session.fail, hs]),
      Nat.le_refl _⟩

theorem callback_onAck (id : RevisionId) (accepted : Bool) (reason : Option String) (s : Session) :
    Callback s (s.onAck id accepted reason) := by
  unfold Session.onAck
  split
  · rename_i hack
    have hx : s.Exchanged → False := fun h => h.ack id hack
    refine ⟨fun hs => ⟨hs.rejected, fun hf hr => (hx (hs.failed hf hr).1).elim,
      fun hc hr => (hx (hs.completed hc hr).1).elim⟩, fun _ => ?_⟩
    exact ⟨.same _, hack ▸ .acked _ _ _, .same _, rfl, rfl, fun h => h,
      fun _ hs ht => absurd ht (by simp [hs]), Nat.le_refl _⟩
  · exact (Inbound.refl s).callback

theorem notifyProgress_drain {s : Session} (h : s.peerCompleted = true) :
    s.notifyProgress.drain ≠ .waiting := by
  unfold Session.notifyProgress
  split
  · rw [if_pos (.inr h)]
    exact fun h => by cases h
  · assumption

theorem callback_onComplete {s : Session} (vaultId : VaultId) (h : s.MayComplete) :
    Callback s (s.onComplete (.syncComplete vaultId)) := by
  rw [Session.onComplete_eq]
  generalize hu : s.peerDone (.syncComplete vaultId) = u
  have hstep := Inbound.notifyProgress u
  have hcompleted : u.peerCompleted = true := hu ▸ rfl
  have hdrain := notifyProgress_drain hcompleted
  have hwaiting : WaitStep s.waiting u.waiting := by
    subst hu
    dsimp only [Session.peerDone]
    split
    · rename_i hs
      exact hs ▸ .completed _
    · exact .same _
  have hwants : ∀ ids, u.HasWants ids ↔ s.HasWants ids := by
    intro ids
    subst hu
    unfold Session.HasWants
    dsimp only [Session.peerDone]
    split
    · rename_i hs
      simp [hs]
    · rfl
  have hsame : u.drain = s.drain ∧ u.unsent = s.unsent ∧ u.ack = s.ack ∧ u.outcome = s.outcome ∧
      u.expected = s.expected ∧ u.failure = s.failure ∧ linkCount u = linkCount s := by
    subst hu
    exact ⟨rfl, rfl, rfl, rfl, rfl, rfl, rfl⟩
  obtain ⟨hd, hunsent, hack, houtcome, hexpected, hfailure, hlinks⟩ := hsame
  have hexchanged : u.outcome = none → u.notifyProgress.Exchanged := by
    intro hrunning
    obtain ⟨h1, h2, -⟩ := h (houtcome ▸ hrunning)
    exact ⟨hstep.unsent.trans (hunsent.trans h1), fun id => hstep.ack ▸ hack ▸ h2 id, hdrain⟩
  refine ⟨fun hs => ⟨fun hf type ht => ?_, fun hf hr => ?_, fun _ hr => ?_⟩, fun hs => ?_⟩
  · rw [hstep.failure, hfailure] at hf
    rw [hstep.waiting] at ht
    rw [ht] at hwaiting
    generalize hw : s.waiting = w at hwaiting
    cases hwaiting with
    | same => exact hs.rejected hf type hw
  · rw [hstep.outcome] at hr
    rw [hstep.failure, hfailure] at hf
    refine ⟨hexchanged hr, fun hidle ids hids => ?_⟩
    obtain ⟨-, hnot⟩ := hs.failed hf (houtcome ▸ hr)
    obtain ⟨hnil, hempty⟩ :=
      hnot (hd ▸ hstep.drain.idle_iff.mp hidle) ids ((hwants ids).mp (hstep.hasWants.mp hids))
    exact ⟨hnil, hstep.expected (hexpected ▸ hempty)⟩
  · rw [hstep.outcome] at hr
    refine ⟨hexchanged hr, fun hidle => ?_⟩
    obtain ⟨h1, h2⟩ := (h (houtcome ▸ hr)).2.2 (hd ▸ hstep.drain.idle_iff.mp hidle)
    exact ⟨hstep.expected (hexpected ▸ h1), .inr (hstep.hasWants.mpr ((hwants []).mpr h2))⟩
  · refine ⟨hstep.waiting ▸ hwaiting, hstep.ack ▸ hack ▸ .same _, hd ▸ hstep.drain,
      hstep.unsent.trans hunsent, hstep.outcome.trans houtcome,
      fun he => hstep.expected (hexpected ▸ he), fun hr _ _ hidle => ?_, ?_⟩
    · exact hstep.hasWants.mpr ((hwants []).mpr ((h hr).2.2 hidle).2)
    · exact hlinks ▸ hstep.links

theorem callback_enqueue (m : Message) (s : Session) : Callback s (s.enqueue m) := by
  have hqueue : Inbound s { s with queued := s.queued ++ [m] } :=
    ⟨rfl, rfl, rfl, .same _, rfl, rfl, fun h => h, rfl, Nat.le_refl _⟩
  unfold Session.enqueue
  split
  · rename_i type hwaiting
    split
    · rename_i htype
      subst htype
      refine ⟨fun hs => ⟨fun _ _ h => (by cases h), fun hf _ => ?_, fun hc hr => ?_⟩, fun hs => ?_⟩
      · exact absurd hwaiting (hs.rejected hf _)
      · obtain ⟨hexchanged, hidle⟩ := hs.completed hc hr
        refine ⟨⟨hexchanged.unsent, hexchanged.ack, hexchanged.drain⟩, fun hd => ?_⟩
        obtain ⟨-, hw⟩ := hidle hd
        simp [hwaiting, Session.HasWants] at hw
      · exact ⟨hwaiting ▸ .message m, .same _, .same _, rfl, rfl, fun h => h,
          fun _ h1 h2 => absurd h2 (by simp [h1]), Nat.le_refl _⟩
    · exact hqueue.callback
  · exact hqueue.callback

/-- What is delivered in time keeps the invariant. -/
theorem callback_accept {s : Peer} {payload : Except Failure Message}
    (h : Timely s (.delivered payload)) :
    Callback s.session (s.session.accept payload).1 := by
  unfold Session.accept
  split
  · exact callback_fail _ h
  · exact callback_fail _ h
  · split
    · rename_i hremote
      exact callback_fail _ (h hremote)
    · exact (Inbound.onHeader _ _).callback
  · exact callback_onAck _ _ _ _
  · exact callback_onComplete _ h
  · exact (Inbound.onCancel _ _ _).callback
  · exact callback_enqueue _ _

/-- A session in which no unbounded wait can be under way and everything else is done. -/
structure Settling (s : Session) : Prop where
  ended : s.failure.isSome = true ∨ s.peerCompleted = true
  untimed : s.timerArmed = false
  inboundWork : s.inboundWork = []
  ingesting : s.ingesting = false

/-- The contract of `run`. -/
def runContract : Contract Peer PeerEvent where
  inv s := Bounded s.session
  rely s t := ByOthers s.session t.session
  guar s _ t := t.session.ingesting = s.session.ingesting
  given _ _ := True
  cond := Timely
  prop _ _ := True
  prompt s := Settling s.session

/-- The contract of the callbacks and of the ingests. -/
def othersContract : Contract Peer PeerEvent where
  inv s := Bounded s.session
  rely _ _ := True
  guar s _ t := ByOthers s.session t.session
  given _ _ := True
  cond := Timely
  prop _ _ := True
  prompt _ := True

/-! ## Callbacks and ingests keep their contract -/

section Others

variable {deps : EngineDeps} {s : Peer} {α : Type}

theorem others_onSession {f : Session → Session × List Output} {post : Unit → Peer → Prop}
    {exc : Failure → Peer → Prop} (hinv : Bounded s.session) (h : Callback s.session (f s.session).1)
    (hpost : Bounded (f s.session).1 → post () { s with session := (f s.session).1 }) :
    Safe othersContract post exc (SyncSession.onSession 0 f) s :=
  fun _ => ⟨fun _ _ => trivial, fun _ =>
    ⟨h.byOthers hinv, h.bounded hinv, hpost (h.bounded hinv)⟩⟩

theorem others_storeOnly {p : Async Peer PeerEvent Failure α}
    (hp : StoreOnly (fun _ => True) p)
    (hinv : Bounded s.session) :
    Safe othersContract (fun _ t => Bounded t.session) (fun _ t => Bounded t.session) p s := by
  refine Framed.safe (P := fun t : Peer => Bounded t.session) (fun _ _ _ _ h => h)
    (fun _ _ _ => trivial) (fun s _ t _ hinv hst _ => ?_) hp hinv hinv
  have hsession := Peer.session_storeStep hst
  have hinvt : Bounded t.session := hsession ▸ hinv
  exact ⟨(hsession ▸ ByOthers.refl _ : ByOthers s.session t.session), hinvt, hinvt⟩

theorem ingestOrReject_others (now : Nat) (inbound : InboundHeader) (bytes : Bytes)
    (hinv : Bounded s.session) :
    Safe othersContract (fun _ t => Bounded t.session) (fun _ t => Bounded t.session)
      (SyncSession.ingestOrReject 0 deps now inbound bytes) s := by
  refine Safe.bind (Safe.attempt (Safe.bind ?_))
  refine (others_storeOnly (storeOnly_ingest deps now fun _ _ => trivial) hinv).mono (fun result t hinv => ?_)
    fun e t hinv => others_onSession hinv (Inbound.reject _ _ _).callback fun h => h
  split
  · exact others_onSession hinv (Inbound.reject _ _ _).callback fun h => h
  · exact others_onSession hinv (Inbound.accepted _ _).callback fun h => h

theorem ingestNext_others (now : Nat) (inbound : InboundHeader) (bytes : Bytes)
    (hinv : Bounded s.session) (hidle : s.session.ingesting = false)
    (hwork : s.session.inboundWork ≠ []) :
    Safe othersContract (fun _ _ => True) (fun _ _ => True)
      (SyncSession.ingestNext 0 deps now inbound bytes) s := by
  have hpop : Inbound s.session { s.session with
      inboundWork := s.session.inboundWork.tail, ingesting := true } := by
    refine ⟨rfl, rfl, rfl, .same _, rfl, rfl, fun h => h, rfl, ?_⟩
    have hlength := List.length_pos_of_ne_nil hwork
    simp only [linkCount, hidle, List.length_tail, Bool.toNat_true, Bool.toNat_false]
    omega
  refine Safe.bind (others_onSession hinv hpop.callback fun hinv => ?_)
  refine Safe.bind (Safe.attempt ?_)
  have hfinish : ∀ t : Peer, Bounded t.session →
      Safe othersContract (fun _ _ => True) (fun _ _ => True)
        (SyncSession.update 0 fun s => { s with ingesting := false, ingested := s.ingested + 1 } :
          Async Peer PeerEvent Failure Unit) t := by
    intro t hinv
    refine others_onSession hinv (Inbound.callback ⟨rfl, rfl, rfl, .same _, rfl, rfl, fun h => h,
      rfl, ?_⟩) fun _ => trivial
    have hbit := Bool.toNat_le t.session.ingesting
    simp only [linkCount, Bool.toNat_false]
    omega
  exact (ingestOrReject_others now inbound bytes hinv).mono (fun _ t h => hfinish t h)
    fun _ t h => hfinish t h

theorem callback_others {e : PeerEvent} {f : Session → Session × List Output}
    (hinv : Bounded s.session) (h : Timely s e → Callback s.session (f s.session).1) :
    Safe othersContract (fun _ _ => True) (fun _ _ => True) (callback e f) s := by
  intro hcond
  have hstep := h (hcond e List.mem_cons_self)
  exact ⟨fun _ _ => trivial, fun _ => ⟨hstep.byOthers hinv, hstep.bounded hinv, trivial⟩⟩

theorem callback_timeout (s : Session) : Callback s s.timeout := by
  have hlift : ∀ e, WaitStep s.waiting (.settled (.error e)) →
      Callback s { s with waiting := .settled (.error e) } := by
    intro e hstep
    have hidle : s.waiting ≠ .idle := by
      intro h
      rw [h] at hstep
      cases hstep
    refine ⟨fun hs => ⟨fun _ _ h => (by cases h), fun hf hr => ?_, fun hc hr => ?_⟩, fun _ => ?_⟩
    · obtain ⟨hexchanged, -⟩ := hs.failed hf hr
      exact ⟨⟨hexchanged.unsent, hexchanged.ack, hexchanged.drain⟩, fun _ _ h => by
        obtain ⟨_, h⟩ := h
        cases h⟩
    · obtain ⟨hexchanged, hd⟩ := hs.completed hc hr
      refine ⟨⟨hexchanged.unsent, hexchanged.ack, hexchanged.drain⟩, fun hdrain => ?_⟩
      rcases (hd hdrain).2 with h | ⟨_, h⟩
      · exact absurd h hidle
      · rw [h] at hstep
        cases hstep
    · exact ⟨hstep, .same _, .same _, rfl, rfl, fun h => h,
        fun _ h1 h2 => absurd h2 (by simp [h1]), Nat.le_refl _⟩
  unfold Session.timeout
  split
  · rename_i type h
    exact hlift _ (h ▸ .failed type _)
  · rename_i h
    exact hlift _ (h ▸ .completed _)
  · exact (Inbound.refl s).callback

theorem start_others (command : PeerCommand) {p : Async Peer PeerEvent Failure Unit}
    (hinv : Bounded s.session) (hp : peerSystem deps command s = some p) :
    Safe othersContract (fun _ _ => True) (fun _ _ => True) p s := by
  cases command with
  | control payload =>
    cases hp
    exact callback_others hinv callback_accept
  | bulk frame =>
    cases hp
    exact callback_others hinv fun _ => (Inbound.acceptBulk _ _).callback
  | close =>
    cases hp
    exact callback_others hinv fun h => callback_fail _ h
  | timeout =>
    rw [peerSystem] at hp
    split at hp
    · cases hp
      exact others_onSession hinv (callback_timeout _) fun _ => trivial
    · cases hp
  | buffered bytes =>
    cases hp
    refine others_onSession hinv (Inbound.callback ?_) fun _ => trivial
    exact ⟨rfl, rfl, rfl, .same _, rfl, rfl, fun h => h, rfl, Nat.le_refl _⟩
  | closeBulk =>
    cases hp
    refine others_onSession hinv (Inbound.callback ?_) fun _ => trivial
    exact ⟨rfl, rfl, rfl, .same _, rfl, rfl, fun h => h, rfl, Nat.le_refl _⟩
  | ingestNext now =>
    rw [peerSystem] at hp
    split at hp
    · cases hp
    · rename_i hidle
      obtain ⟨⟨inbound, bytes⟩, hhead, rfl⟩ := Option.map_eq_some_iff.mp hp
      apply ingestNext_others now inbound bytes hinv (by simpa using hidle)
      intro hnil
      rw [hnil] at hhead
      cases hhead

end Others

/-! ## `run` keeps its contract

The stages of `run`, each kept by what the others do meanwhile. -/

/-- Up to `want-revisions`, while no message is waited for. -/
structure Opening (s : Session) : Prop where
  drain : s.drain = .idle
  unsent : s.unsent = false
  ack : s.ack = .idle
  outcome : s.outcome = none
  waiting : s.waiting = .idle
  completed : s.peerCompleted = false

/-- A wait for a message of a type, or what came of it. -/
def AwaitingType (type : MessageType) : Waiting → Prop
  | .expecting type' => type' = type
  | .settled (.ok message) => message.type = type
  | .settled (.error _) => True
  | _ => False

/-- Up to `want-revisions`, while a message is waited for. -/
structure Expecting (type : MessageType) (s : Session) : Prop where
  drain : s.drain = .idle
  unsent : s.unsent = false
  ack : s.ack = .idle
  outcome : s.outcome = none
  waiting : AwaitingType type s.waiting
  completed : type ≠ .wantRevisions → s.peerCompleted = false

/-- `want-revisions` was just taken. -/
structure Took (ids : List RevisionId) (s : Session) : Prop where
  ack : s.ack = .idle
  outcome : s.outcome = none
  waiting : s.waiting = .idle
  failure : s.failure.isSome = true → ids = [] ∧ s.expected = []
  completed : s.peerCompleted = true → ids = [] ∧ s.expected = []

/-- Revisions are exchanged, and `rest` is still to be sent. -/
structure Exchanging (rest : List RevisionId) (s : Session) : Prop where
  drain : s.drain ≠ .idle
  outcome : s.outcome = none
  waiting : s.waiting = .idle
  unsent : rest ≠ [] → s.unsent = true

def Serving (rest : List RevisionId) (s : Session) : Prop := Exchanging rest s ∧ s.ack = .idle

def Acking (rest : List RevisionId) (s : Session) : Prop := Exchanging rest s ∧ s.ack ≠ .idle

/-- Everything was exchanged. -/
structure Ending (s : Session) : Prop where
  drain : s.drain ≠ .idle
  outcome : s.outcome = none
  waiting : s.waiting = .idle

/-- Everything was exchanged, and the peer is to complete. -/
structure Completing (s : Session) : Prop where
  drain : s.drain ≠ .idle
  outcome : s.outcome = none
  waiting : s.waiting = .completing ∨ ∃ outcome, s.waiting = .settled outcome

/-- Kept by what the others do. -/
def Lasts (P : Session → Prop) : Prop := ∀ s t, Bounded t → ByOthers s t → P s → P t

theorem AckStep.idle_iff {a b : AckWait} (h : AckStep a b) : b = .idle ↔ a = .idle := by
  cases h <;> simp

theorem AwaitingType.step {type : MessageType} {v w : Waiting} (h : WaitStep v w)
    (hv : AwaitingType type v) : AwaitingType type w := by
  cases h with
  | same => exact hv
  | failed => trivial
  | message m => exact hv
  | completed => exact hv.elim

theorem AwaitingType.settled {type : MessageType} {w : Waiting} (h : AwaitingType type w)
    (htimer : ∀ type, w ≠ .expecting type) : ∃ outcome, w = .settled outcome := by
  cases w with
  | idle => exact h.elim
  | expecting type' => exact absurd rfl (htimer type')
  | completing => exact h.elim
  | settled outcome => exact ⟨outcome, rfl⟩

theorem opening_lasts : Lasts Opening := by
  intro s t _ hst h
  have hwaiting : t.waiting = .idle := (h.waiting ▸ hst.waiting).of_idle
  refine ⟨hst.drain.idle_iff.mpr h.drain, hst.unsent.trans h.unsent,
    hst.ack.idle_iff.mpr h.ack, hst.outcome.trans h.outcome, hwaiting, ?_⟩
  cases hc : t.peerCompleted with
  | false => rfl
  | true =>
    obtain ⟨vaultId, hwants⟩ := hst.completed h.outcome h.completed hc h.drain
    rw [hwaiting] at hwants
    cases hwants

theorem expecting_lasts (type : MessageType) : Lasts (Expecting type) := by
  intro s t _ hst h
  have hwaiting : AwaitingType type t.waiting := h.waiting.step hst.waiting
  refine ⟨hst.drain.idle_iff.mpr h.drain, hst.unsent.trans h.unsent,
    hst.ack.idle_iff.mpr h.ack, hst.outcome.trans h.outcome, hwaiting, fun htype => ?_⟩
  cases hc : t.peerCompleted with
  | false => rfl
  | true =>
    obtain ⟨vaultId, hwants⟩ := hst.completed h.outcome (h.completed htype) hc h.drain
    rw [hwants] at hwaiting
    exact absurd hwaiting.symm htype

theorem exchanging_lasts (rest : List RevisionId) : Lasts (Exchanging rest) := by
  intro s t _ hst h
  exact ⟨fun hd => h.drain (hst.drain.idle_iff.mp hd), hst.outcome.trans h.outcome,
    (h.waiting ▸ hst.waiting).of_idle, fun hrest => hst.unsent.trans (h.unsent hrest)⟩

theorem serving_lasts (rest : List RevisionId) : Lasts (Serving rest) := fun s t hb hst h =>
  ⟨exchanging_lasts rest s t hb hst h.1, hst.ack.idle_iff.mpr h.2⟩

theorem acking_lasts (rest : List RevisionId) : Lasts (Acking rest) := fun s t hb hst h =>
  ⟨exchanging_lasts rest s t hb hst h.1, fun ha => h.2 (hst.ack.idle_iff.mp ha)⟩

theorem ending_lasts : Lasts Ending := by
  intro s t _ hst h
  exact ⟨fun hd => h.drain (hst.drain.idle_iff.mp hd), hst.outcome.trans h.outcome,
    (h.waiting ▸ hst.waiting).of_idle⟩

theorem Completing.timer {s : Session} (h : Completing s) (type : MessageType) :
    s.waiting ≠ .expecting type := by
  rcases h.waiting with hw | ⟨outcome, hw⟩ <;> simp [hw]

theorem completing_lasts : Lasts Completing := by
  intro s t _ hst h
  refine ⟨fun hd => h.drain (hst.drain.idle_iff.mp hd), hst.outcome.trans h.outcome, ?_⟩
  have hwaiting := hst.waiting
  rcases h.waiting with hw | ⟨outcome, hw⟩
  · rw [hw] at hwaiting
    generalize t.waiting = w at hwaiting ⊢
    cases hwaiting with
    | same => exact .inl rfl
    | completed outcome => exact .inr ⟨outcome, rfl⟩
  · exact .inr ⟨outcome, (hw ▸ hwaiting).of_settled⟩

/-- While something is unsent, the session has neither failed nor been completed. -/
theorem Bounded.unended {s : Session} (hs : Bounded s) (hrunning : s.outcome = none)
    (hunsent : s.unsent = true) : s.failure = none ∧ s.peerCompleted = false := by
  constructor
  · cases hf : s.failure with
    | none => rfl
    | some e =>
      have hexchanged := (hs.failed (by simp [hf]) hrunning).1
      simp [hexchanged.unsent] at hunsent
  · cases hc : s.peerCompleted with
    | false => rfl
    | true =>
      have hexchanged := (hs.completed hc hrunning).1
      simp [hexchanged.unsent] at hunsent

theorem Bounded.of_unended {s : Session} (hf : s.failure = none) (hc : s.peerCompleted = false) :
    Bounded s where
  rejected h := by simp [hf] at h
  failed h := by simp [hf] at h
  completed h := by simp [hc] at h

theorem Bounded.exchanged {s : Session} (hs : Bounded s) (hrunning : s.outcome = none)
    (hended : s.failure.isSome = true ∨ s.peerCompleted = true) : s.Exchanged := by
  rcases hended with h | h
  · exact (hs.failed h hrunning).1
  · exact (hs.completed h hrunning).1

/-- Past `want-revisions`, a step of `run` that starts no unbounded wait. -/
theorem Bounded.past {s t : Session} (hs : Bounded s) (hdrain : t.drain ≠ .idle)
    (hf : t.failure = s.failure) (hc : t.peerCompleted = s.peerCompleted)
    (ho : t.outcome = s.outcome) (hwaiting : ∀ type, t.waiting ≠ .expecting type)
    (hx : s.Exchanged → t.Exchanged) : Bounded t where
  rejected _ := hwaiting
  failed h hr := ⟨hx (hs.failed (hf ▸ h) (ho ▸ hr)).1, fun hd => absurd hd hdrain⟩
  completed h hr := ⟨hx (hs.completed (hc ▸ h) (ho ▸ hr)).1, fun hd => absurd hd hdrain⟩

theorem Bounded.setWaiting {s : Session} (hs : Bounded s) (hdrain : s.drain ≠ .idle)
    {waiting : Waiting} (hwaiting : ∀ type, waiting ≠ .expecting type) :
    Bounded { s with waiting } :=
  hs.past hdrain rfl rfl rfl hwaiting fun h => ⟨h.unsent, h.ack, h.drain⟩

section Run

variable {s : Peer} {α β : Type}

/-- A part of `run` that leads to a stage. -/
abbrev LeadsTo (P : α → Session → Prop) (p : Async Peer PeerEvent Failure α) (s : Peer) : Prop :=
  Safe runContract (fun a t => P a t.session) (fun _ _ => True) p s

theorem leadsTo_bind {P : α → Session → Prop} {Q : β → Session → Prop}
    {p : Async Peer PeerEvent Failure α} {k : α → Async Peer PeerEvent Failure β}
    (hinv : Bounded s.session) (hp : LeadsTo P p s)
    (hk : ∀ a t, Bounded t.session → P a t.session → LeadsTo Q (k a) t) :
    LeadsTo Q (p >>= k) s := by
  apply Safe.bind
  exact (hp.with_inv hinv).mono (fun a t h => hk a t h.2 h.1) fun _ _ _ => trivial

theorem leadsTo_onSession {P : Unit → Session → Prop} {f : Session → Session × List Output}
    (hingesting : (f s.session).1.ingesting = s.session.ingesting)
    (hinv : Bounded (f s.session).1) (h : P () (f s.session).1) :
    LeadsTo P (SyncSession.onSession 0 f) s :=
  fun _ => ⟨fun _ _ => trivial, fun _ => ⟨hingesting, hinv, h⟩⟩

theorem leadsTo_update {P : Session → Prop} {f : Session → Session}
    (hingesting : (f s.session).ingesting = s.session.ingesting)
    (hinv : Bounded (f s.session)) (h : P (f s.session)) :
    LeadsTo (fun _ => P) (SyncSession.update 0 f) s :=
  leadsTo_onSession hingesting hinv h

theorem leadsTo_send {P : Session → Prop} (message : Message) (hinv : Bounded s.session)
    (h : P s.session) : LeadsTo (fun _ => P) (SyncSession.send 0 message) s :=
  leadsTo_onSession rfl hinv h

theorem leadsTo_emit {P : Session → Prop} (event : SessionEvent) (hinv : Bounded s.session)
    (h : P s.session) : LeadsTo (fun _ => P) (SyncSession.emit 0 event) s :=
  leadsTo_onSession rfl hinv h

theorem leadsTo_storeOnly {P : Session → Prop} (hP : Lasts P)
    {p : Async Peer PeerEvent Failure α}
    (hp : StoreOnly (fun _ => True) p) (hinv : Bounded s.session)
    (h : P s.session) : LeadsTo (fun _ => P) p s := by
  have hsafe := Framed.safe (c := runContract) (P := fun t : Peer => P t.session)
    (fun _ _ h hst hinv => hP _ _ hinv hst h) (fun _ _ _ => trivial)
    (fun _ _ _ h hinv hst _ => ?_) hp h hinv
  · exact hsafe.mono (fun _ _ h => h) fun _ _ _ => trivial
  · have hsession := Peer.session_storeStep hst
    refine ⟨congrArg Session.ingesting hsession, ?_, ?_⟩
    · exact (congrArg Bounded hsession).mpr hinv
    · exact (congrArg P hsession).mpr h

theorem leadsTo_readSession {P : Session → Prop} (f : Session → α) (hinv : Bounded s.session)
    (h : P s.session) : LeadsTo (fun _ => P) (SyncSession.readSession 0 f) s :=
  fun _ => ⟨fun _ _ => trivial, fun _ => ⟨rfl, hinv, h⟩⟩

theorem leadsTo_pause {P : Session → Prop} (hP : Lasts P) (h : P s.session) :
    LeadsTo (fun _ => P) Async.pause s :=
  fun _ hst hinv => ⟨fun _ => rfl, fun _ => hP _ _ hinv hst h⟩

theorem leadsTo_ofExcept {P : Session → Prop} (result : Except Failure α) (h : P s.session) :
    LeadsTo (fun _ => P) (Async.ofExcept result) s := by
  cases result with
  | ok a => exact h
  | error e => trivial

theorem leadsTo_fromBase64 {P : Session → Prop} (text reason : String) (h : P s.session) :
    LeadsTo (fun _ => P) (SyncSession.fromBase64 text reason) s := by
  unfold SyncSession.fromBase64
  split
  · exact h
  · trivial

/-- The end of a wait: its outcome, in a session that waits no more. -/
theorem leadsTo_takeOutcome {P : Message → Session → Prop} (hs : Bounded s.session)
    (hinv : Bounded { s.session with waiting := .idle })
    (h : ∀ m, s.session.waiting = .settled (.ok m) → P m { s.session with waiting := .idle }) :
    LeadsTo P (SyncSession.takeOutcome 0) s := by
  refine fun _ => ⟨fun _ _ => trivial, fun _ => ⟨rfl, hs, fun _ => ?_⟩⟩
  refine ⟨fun _ _ => trivial, fun _ => ⟨rfl, hinv, ?_⟩⟩
  dsimp only [SyncSession.takeOutcome, SyncSession.readSession, Async.read]
  dsimp only [Async.bind]
  cases hw : s.session.waiting with
  | settled outcome =>
    cases outcome with
    | ok m => exact h m hw
    | error e => trivial
  | _ => trivial

/-- The wait of `expect`. -/
theorem leadsTo_expecting {P : Message → Session → Prop} (type : MessageType)
    (hs : Expecting type s.session)
    (hP : ∀ t m, Bounded t → Expecting type t → t.waiting = .settled (.ok m) →
      P m { t with waiting := .idle }) :
    LeadsTo P (.await (fun s => (PassVault.session 0 s).isSettled) (SyncSession.takeOutcome 0))
      s := by
  intro t hst hinv
  have ht := expecting_lasts type _ _ hinv hst hs
  refine ⟨fun hsettling => ?_, fun _ => ?_⟩
  · have htimer := hsettling.untimed
    obtain ⟨outcome, hw⟩ := ht.waiting.settled fun type hw => by
      simp [Session.timerArmed, hw] at htimer
    simp [Session.isSettled, hw]
  · refine leadsTo_takeOutcome hinv ?_ fun m hm => hP _ m hinv ht hm
    refine ⟨fun _ _ h => (by cases h), fun hf hr => ?_, fun hc hr => ?_⟩
    · obtain ⟨hexchanged, -⟩ := hinv.failed hf hr
      refine ⟨⟨hexchanged.unsent, hexchanged.ack, hexchanged.drain⟩, fun _ _ h => ?_⟩
      obtain ⟨_, h⟩ := h
      cases h
    · obtain ⟨hexchanged, hidle⟩ := hinv.completed hc hr
      exact ⟨⟨hexchanged.unsent, hexchanged.ack, hexchanged.drain⟩, fun hd =>
        ⟨(hidle hd).1, .inl rfl⟩⟩

theorem expect_spec (type : MessageType) (s : Session) :
    ∃ queued waiting, s.expect type = { s with queued, waiting } ∧ AwaitingType type waiting ∧
      (s.failure.isSome = true → ∃ e, waiting = .settled (.error e)) := by
  unfold Session.expect
  split
  · rename_i e hf
    exact ⟨s.queued, _, rfl, trivial, fun _ => ⟨e, rfl⟩⟩
  · rename_i hf
    split
    · exact ⟨s.queued, _, rfl, trivial, fun h => by simp [hf] at h⟩
    · split
      · rename_i m hm
        exact ⟨_, _, rfl, by simpa [AwaitingType] using List.find?_some hm,
          fun h => by simp [hf] at h⟩
      · exact ⟨s.queued, _, rfl, rfl, fun h => by simp [hf] at h⟩

theorem leadsTo_expect {P : Message → Session → Prop} (type : MessageType)
    (hs : Opening s.session) (hinv : Bounded s.session)
    (hP : ∀ t m, Bounded t → Expecting type t → t.waiting = .settled (.ok m) →
      P m { t with waiting := .idle }) :
    LeadsTo P (SyncSession.expect 0 type) s := by
  obtain ⟨queued, waiting, heq, hwaiting, hfailed⟩ := expect_spec type s.session
  refine leadsTo_bind (P := fun _ => Expecting type) hinv (leadsTo_update ?_ ?_ ?_)
    fun _ t _ ht => leadsTo_expecting type ht hP
  · rw [heq]
  · rw [heq]
    refine ⟨fun hf type hw => ?_, fun hf _ => ⟨⟨hs.unsent, fun id h => ?_, fun h => ?_⟩, ?_⟩,
      fun hc => ?_⟩
    · obtain ⟨e, he⟩ := hfailed hf
      rw [show waiting = .expecting type from hw] at he
      cases he
    · simp [hs.ack] at h
    · simp [hs.drain] at h
    · rintro - ids ⟨vaultId, hids⟩
      obtain ⟨e, he⟩ := hfailed hf
      rw [show waiting = _ from hids] at he
      cases he
    · simp [hs.completed] at hc
  · rw [heq]
    exact ⟨hs.drain, hs.unsent, hs.ack, hs.outcome, hwaiting, fun _ => hs.completed⟩

/-- A message of the opening. -/
theorem opening_expect (type : MessageType) (htype : type ≠ .wantRevisions)
    (hs : Opening s.session) (hinv : Bounded s.session) :
    LeadsTo (fun _ => Opening) (SyncSession.expect 0 type) s :=
  leadsTo_expect type hs hinv fun _ _ _ ht _ =>
    ⟨ht.drain, ht.unsent, ht.ack, ht.outcome, rfl, ht.completed htype⟩

theorem took_expect (hs : Opening s.session) (hinv : Bounded s.session) :
    LeadsTo (fun m t => ∀ vaultId ids, m = .wantRevisions vaultId ids → Took ids t)
      (SyncSession.expect 0 .wantRevisions) s := by
  apply leadsTo_expect _ hs hinv
  intro t m hb ht hm vaultId ids hids
  subst hids
  refine ⟨ht.ack, ht.outcome, rfl, ?_, fun hc => ?_⟩
  · exact fun hf => (hb.failed hf ht.outcome).2 ht.drain ids ⟨vaultId, hm⟩
  · obtain ⟨hexpected, hw⟩ := (hb.completed hc ht.outcome).2 ht.drain
    refine ⟨?_, hexpected⟩
    rcases hw with hw | ⟨_, hw⟩
    · rw [hm] at hw
      cases hw
    · rw [hm] at hw
      cases hw
      rfl

theorem opening_handshake (auth : PeerAuthenticator) (hs : Opening s.session)
    (hinv : Bounded s.session) :
    LeadsTo (fun _ => Opening) (SyncSession.handshake 0 auth) s := by
  apply leadsTo_bind hinv (leadsTo_send _ hinv hs)
  intro _ s hinv hs
  apply leadsTo_bind hinv (opening_expect .hello (by decide) hs hinv)
  intro m s hinv hs
  cases m with
  | hello version deviceId deviceName publicKey nonce =>
    dsimp only
    split
    · exact leadsTo_bind hinv (leadsTo_send _ hinv hs) fun _ _ _ _ => trivial
    apply leadsTo_bind hinv (leadsTo_fromBase64 _ _ hs)
    intro _ s hinv hs
    apply leadsTo_bind hinv (leadsTo_fromBase64 _ _ hs)
    intro _ s hinv hs
    apply leadsTo_bind hinv (leadsTo_pause opening_lasts hs)
    intro _ s hinv hs
    apply leadsTo_bind hinv (leadsTo_send _ hinv hs)
    intro _ s hinv hs
    apply leadsTo_bind hinv (opening_expect .auth (by decide) hs hinv)
    intro m s hinv hs
    cases m with
    | auth signature =>
      dsimp only
      apply leadsTo_bind hinv (leadsTo_fromBase64 _ _ hs)
      intro _ s hinv hs
      apply leadsTo_bind hinv (leadsTo_pause opening_lasts hs)
      intro _ s hinv hs
      split
      · exact leadsTo_bind hinv (leadsTo_send _ hinv hs) fun _ _ _ _ => trivial
      have hnamed : Opening { s.session with remoteDeviceId := some deviceId } :=
        ⟨hs.drain, hs.unsent, hs.ack, hs.outcome, hs.waiting, hs.completed⟩
      have hstep : Inbound s.session { s.session with remoteDeviceId := some deviceId } :=
        ⟨rfl, rfl, rfl, .same _, rfl, rfl, fun h => h, rfl, Nat.le_refl _⟩
      refine leadsTo_bind (P := fun _ => Opening) hinv (leadsTo_update rfl (hstep.bounded hinv) hnamed)
        fun _ s hinv hs => ?_
      apply leadsTo_bind hinv (leadsTo_emit _ hinv hs)
      intro _ s hinv hs
      exact leadsTo_bind hinv (leadsTo_emit _ hinv hs) fun _ s hinv hs => hs
    | _ => trivial
  | _ => trivial

theorem opening_exchangeVaultSummary (deps : SessionDeps) (hs : Opening s.session)
    (hinv : Bounded s.session) :
    LeadsTo (fun _ => Opening)
      (SyncSession.exchangeVaultSummary 0 deps fun _ => return ()) s := by
  refine leadsTo_bind hinv (leadsTo_storeOnly opening_lasts (storeOnly_localVault _) hinv hs)
    fun vault s hinv hs => ?_
  dsimp only
  split
  · exact leadsTo_bind hinv (leadsTo_send _ hinv hs) fun _ _ _ _ => trivial
  have hadvertise : LeadsTo (fun _ => Opening) (SyncSession.advertise 0 vault) s := by
    cases vault with
    | some vault =>
      exact leadsTo_bind hinv (leadsTo_storeOnly opening_lasts (storeOnly_query _) hinv hs)
        fun _ _ hinv hs => leadsTo_send _ hinv hs
    | none => exact leadsTo_send _ hinv hs
  apply leadsTo_bind hinv hadvertise
  intro _ s hinv hs
  refine leadsTo_bind hinv (opening_expect .vaultSummary (by decide) hs hinv)
    fun m s hinv hs => ?_
  cases m with
  | vaultSummary remoteId remoteName remoteHead revisionCount =>
    cases vault with
    | none =>
      dsimp only
      split
      · trivial
      refine leadsTo_bind hinv
        (leadsTo_storeOnly opening_lasts (storeOnly_adoptVault _ _ _ fun _ => trivial) hinv hs)
        fun _ s hinv hs => ?_
      exact leadsTo_bind hinv (leadsTo_emit _ hinv hs) fun _ s hinv hs => hs
    | some vault =>
      dsimp only
      split
      · trivial
      · exact hs
  | _ => trivial

theorem opening_exchangeHistory (vaultId : VaultId) (hs : Opening s.session)
    (hinv : Bounded s.session) :
    LeadsTo (fun _ => Opening) (SyncSession.exchangeHistory 0 vaultId) s := by
  refine leadsTo_bind hinv
    (leadsTo_storeOnly opening_lasts (storeOnly_historySummary _) hinv hs) fun _ s hinv hs => ?_
  apply leadsTo_bind hinv (leadsTo_send _ hinv hs)
  intro _ s hinv hs
  refine leadsTo_bind hinv (opening_expect .historySummary (by decide) hs hinv)
    fun m s hinv hs => ?_
  cases m with
  | historySummary vaultId revisions => exact hs
  | _ => trivial

/-! ### The exchange of revisions -/

theorem serving_startDrain {ids : List RevisionId} (hs : Took ids s.session) :
    LeadsTo (fun _ => Serving ids) (SyncSession.startDrain 0 ids) s := by
  unfold SyncSession.startDrain
  apply leadsTo_update
  · rfl
  · have hexchanged : ids = [] ∧ s.session.expected = [] → Session.Exchanged { s.session with
        drain := if s.session.expected = [] then .resolved else .waiting
        unsent := !ids.isEmpty } := by
      rintro ⟨rfl, hexpected⟩
      exact ⟨rfl, fun id h => by simp [hs.ack] at h, by simp [hexpected]⟩
    have hdrain : (if s.session.expected = [] then Drain.resolved else .waiting) ≠ .idle := by
      split <;> simp
    exact ⟨fun _ type h => by simp [hs.waiting] at h,
      fun hf _ => ⟨hexchanged (hs.failure hf), fun hd => absurd hd hdrain⟩,
      fun hc _ => ⟨hexchanged (hs.completed hc), fun hd => absurd hd hdrain⟩⟩
  · refine ⟨⟨?_, hs.outcome, hs.waiting, fun hids => ?_⟩, hs.ack⟩
    · dsimp only
      split <;> simp
    · simp [hids]

theorem acking_backpressure {rest : List RevisionId} (highWaterBytes : Nat) (hrest : rest ≠ [])
    (hs : Acking rest s.session) (hinv : Bounded s.session) :
    LeadsTo (fun _ => Acking rest) (SyncSession.backpressure 0 highWaterBytes) s := by
  refine fun _ => ⟨fun _ _ => trivial, fun _ => ⟨rfl, hinv, ?_⟩⟩
  dsimp only [SyncSession.backpressure, SyncSession.readSession, Async.read]
  show Safe _ _ _ (if _ then _ else _) _
  split
  · intro t hst hinvt
    have ht := acking_lasts rest _ _ hinvt hst hs
    refine ⟨fun hsettling => ?_, fun _ => ht⟩
    obtain ⟨hf, hc⟩ := hinvt.unended ht.1.outcome (ht.1.unsent hrest)
    rcases hsettling.ended with h | h
    · simp [hf] at h
    · simp [hc] at h
  · exact hs

theorem acking_sendChunks {rest : List RevisionId} (deps : SessionDeps) (transferSeq : Nat)
    (bytes : Bytes) (hrest : rest ≠ []) (indices : List Nat) (hs : Acking rest s.session)
    (hinv : Bounded s.session) :
    LeadsTo (fun _ => Acking rest) (SyncSession.sendChunks 0 deps transferSeq bytes indices) s := by
  induction indices generalizing s with
  | nil => exact hs
  | cons index indices ih =>
    apply leadsTo_bind hinv (acking_backpressure _ hrest hs hinv)
    intro _ s hinv hs
    apply leadsTo_bind hinv (leadsTo_ofExcept _ hs)
    intro frame s hinv hs
    refine leadsTo_bind (P := fun _ => Acking rest) hinv (leadsTo_onSession rfl hinv hs)
      fun _ s hinv hs => ?_
    exact ih hs hinv

theorem serving_takeAck {rest : List RevisionId} (hs : Acking rest s.session) :
    LeadsTo (fun _ => Serving rest) (SyncSession.takeAck 0) s := by
  intro t hst hinv
  have ht := acking_lasts rest _ _ hinv hst hs
  refine ⟨fun hsettling => ?_, fun _ => ?_⟩
  · have hexchanged := hinv.exchanged ht.1.outcome hsettling.ended
    cases hack : t.session.ack with
    | idle => exact absurd hack ht.2
    | waiting id => exact absurd hack (hexchanged.ack id)
    | settled accepted reason => simp [Session.ackSettled, hack]
  · have htook : Serving rest { t.session with ack := .idle } :=
      ⟨⟨ht.1.drain, ht.1.outcome, ht.1.waiting, ht.1.unsent⟩, rfl⟩
    have hinv' : Bounded { t.session with ack := .idle } := by
      refine hinv.past ht.1.drain rfl rfl rfl (fun type h => ?_) fun h => ?_
      · simp [ht.1.waiting] at h
      · exact ⟨h.unsent, fun _ h => (by cases h), h.drain⟩
    refine fun _ => ⟨fun _ _ => trivial, fun _ => ⟨rfl, hinv, fun _ => ?_⟩⟩
    refine ⟨fun _ _ => trivial, fun _ => ⟨rfl, hinv', ?_⟩⟩
    dsimp only [SyncSession.readSession, Async.read, Async.bind]
    split
    · exact htook
    · trivial

theorem serving_sendRevision {id : RevisionId} {rest : List RevisionId} (deps : SessionDeps)
    (transferSeq : Nat) (revision : Revision) (bytes : Bytes)
    (hs : Serving (id :: rest) s.session) (hinv : Bounded s.session) :
    LeadsTo (fun _ => Serving rest)
      (SyncSession.sendRevision 0 deps transferSeq revision bytes rest.isEmpty) s := by
  have hne : id :: rest ≠ [] := List.cons_ne_nil _ _
  apply leadsTo_bind hinv (leadsTo_ofExcept _ hs)
  intro totalChunks s hinv hs
  apply leadsTo_bind hinv (leadsTo_send _ hinv hs)
  intro _ s hinv hs
  apply leadsTo_bind hinv (leadsTo_emit _ hinv hs)
  intro _ s hinv hs
  -- The session has not ended, so a wait may begin.
  obtain ⟨hf, hc⟩ := hinv.unended hs.1.outcome (hs.1.unsent hne)
  have hacking : Acking (id :: rest) { s.session with ack := .waiting revision.id } :=
    ⟨⟨hs.1.drain, hs.1.outcome, hs.1.waiting, hs.1.unsent⟩, fun h => by cases h⟩
  have hawait : LeadsTo (fun _ => Acking (id :: rest)) (SyncSession.awaitAck 0 revision.id) s :=
    leadsTo_update (f := fun s => { s with ack := .waiting revision.id }) rfl (.of_unended hf hc)
      hacking
  apply leadsTo_bind hinv hawait
  intro _ s hinv hs
  apply leadsTo_bind hinv (acking_sendChunks deps _ bytes hne _ hs hinv)
  intro _ s hinv hs
  obtain ⟨hf, hc⟩ := hinv.unended hs.1.outcome (hs.1.unsent hne)
  have hlast : Acking rest { s.session with unsent := !rest.isEmpty } :=
    ⟨⟨hs.1.drain, hs.1.outcome, hs.1.waiting, fun h => by simp [h]⟩, hs.2⟩
  apply leadsTo_bind hinv (leadsTo_update rfl (.of_unended hf hc) hlast)
  intro _ s hinv hs
  apply leadsTo_bind hinv (serving_takeAck hs)
  intro ack s hinv hs
  dsimp only
  split
  · apply leadsTo_onSession
    · rfl
    · exact hinv.past hs.1.drain rfl rfl rfl (fun type h => by simp [hs.1.waiting] at h)
        fun h => ⟨h.unsent, h.ack, h.drain⟩
    · exact ⟨⟨hs.1.drain, hs.1.outcome, hs.1.waiting, hs.1.unsent⟩, hs.2⟩
  · exact leadsTo_emit _ hinv hs

theorem serving_serve (deps : SessionDeps) (ids : List RevisionId) (transferSeq : Nat)
    (hs : Serving ids s.session) (hinv : Bounded s.session) :
    LeadsTo (fun _ => Serving []) (SyncSession.serve 0 deps ids transferSeq) s := by
  induction ids generalizing s transferSeq with
  | nil =>
    unfold SyncSession.serve
    apply leadsTo_update
    · rfl
    · exact hinv.past hs.1.drain rfl rfl rfl (fun type h => by simp [hs.1.waiting] at h)
        fun h => ⟨rfl, h.ack, h.drain⟩
    · exact ⟨⟨hs.1.drain, hs.1.outcome, hs.1.waiting, fun h => absurd rfl h⟩, hs.2⟩
  | cons id rest ih =>
    refine leadsTo_bind hinv (leadsTo_storeOnly (serving_lasts _) (storeOnly_query _) hinv hs)
      fun found s hinv hs => ?_
    cases found with
    | none =>
      exact ih _ ⟨⟨hs.1.drain, hs.1.outcome, hs.1.waiting, fun _ =>
        hs.1.unsent (List.cons_ne_nil _ _)⟩, hs.2⟩ hinv
    | some revision =>
      refine leadsTo_bind hinv (leadsTo_storeOnly (serving_lasts _) (storeOnly_bytesOf _) hinv hs)
        fun bytes s hinv hs => ?_
      apply leadsTo_bind hinv (serving_sendRevision deps _ _ _ hs hinv)
      intro _ s hinv hs
      exact ih _ hs hinv

theorem ending_exchangeRevisions (deps : SessionDeps) {ids : List RevisionId}
    (hs : Took ids s.session) (hinv : Bounded s.session) :
    LeadsTo (fun _ => Ending) (SyncSession.exchangeRevisions 0 deps ids) s := by
  apply leadsTo_bind hinv (serving_startDrain hs)
  intro _ s hinv hs
  apply leadsTo_bind hinv (serving_serve deps ids 0 hs hinv)
  intro _ s hinv hs t hst hinvt
  have ht := serving_lasts [] _ _ hinvt hst hs
  refine ⟨fun hsettling => ?_, fun _ => ⟨ht.1.drain, ht.1.outcome, ht.1.waiting⟩⟩
  have hexchanged := hinvt.exchanged ht.1.outcome hsettling.ended
  cases hdrain : t.session.drain with
  | idle => exact absurd hdrain ht.1.drain
  | waiting => exact absurd hdrain hexchanged.drain
  | resolved => simp [hdrain]

/-! ### After the exchange -/

theorem ending_awaitCompletion (hs : Ending s.session) (hinv : Bounded s.session) :
    LeadsTo (fun _ => Ending) (SyncSession.awaitCompletion 0) s := by
  have hwaits : Completing { s.session with
      waiting := if s.session.peerCompleted then .settled (.ok (.syncComplete emptyVaultId))
        else .completing } := by
    refine ⟨hs.drain, hs.outcome, ?_⟩
    dsimp only
    split
    · exact .inr ⟨_, rfl⟩
    · exact .inl rfl
  have hinv' := hinv.setWaiting hs.drain hwaits.timer
  apply leadsTo_bind hinv (leadsTo_update rfl hinv' hwaits)
  intro _ s hinv hs
  refine leadsTo_bind (P := fun _ => Ending) hinv (fun t hst hinvt => ?_) fun _ _ _ hs => hs
  have ht := completing_lasts _ _ hinvt hst hs
  refine ⟨fun hsettling => ?_, fun _ => ?_⟩
  · have htimer := hsettling.untimed
    rcases ht.waiting with hw | ⟨outcome, hw⟩
    · simp [Session.timerArmed, hw] at htimer
    · simp [Session.isSettled, hw]
  · exact leadsTo_takeOutcome hinvt (hinvt.setWaiting ht.drain fun _ h => by cases h)
      fun _ _ => ⟨ht.drain, ht.outcome, rfl⟩

theorem ending_awaitInbound (hs : Ending s.session) (hinv : Bounded s.session) :
    LeadsTo (fun _ => Ending) (SyncSession.awaitInbound 0) s := by
  refine fun _ => ⟨fun _ _ => trivial, fun _ => ⟨rfl, hinv, ?_⟩⟩
  intro t hst hinvt
  refine ⟨fun hsettling => ?_, fun _ => ending_lasts _ _ hinvt hst hs⟩
  have hlinks : linkCount s.session ≤ linkCount t.session := hst.links
  have hdone : linkCount t.session = t.session.ingested := by
    simp [linkCount, hsettling.ingesting, hsettling.inboundWork]
  show decide (linkCount s.session ≤ t.session.ingested) = true
  simp only [decide_eq_true_eq]
  omega

theorem leadsTo_run (deps : SessionDeps) (hs : Opening s.session) (hinv : Bounded s.session) :
    LeadsTo (fun _ _ => True) (SyncSession.run 0 deps fun _ => return ()) s := by
  apply leadsTo_bind hinv (opening_handshake _ hs hinv)
  intro remote s hinv hs
  apply leadsTo_bind hinv (opening_exchangeVaultSummary deps hs hinv)
  intro agreed s hinv hs
  obtain ⟨vaultId, remoteHead⟩ := agreed
  apply leadsTo_bind hinv (opening_exchangeHistory vaultId hs hinv)
  intro summary s hinv hs
  apply leadsTo_bind hinv (leadsTo_ofExcept _ hs)
  intro _ s hinv hs
  refine leadsTo_bind hinv
    (leadsTo_storeOnly opening_lasts (storeOnly_computeWants _ _ _) hinv hs)
    fun wanted s hinv hs => ?_
  have hrequested : Opening { s.session with expected := wanted } :=
    ⟨hs.drain, hs.unsent, hs.ack, hs.outcome, hs.waiting, hs.completed⟩
  refine leadsTo_bind (P := fun _ => Opening) hinv (leadsTo_onSession rfl ?_ hrequested)
    fun _ s hinv hs => ?_
  · refine ⟨hinv.rejected, fun hf hr => ?_, fun hc => ?_⟩
    · obtain ⟨hexchanged, -⟩ := hinv.failed hf hr
      refine ⟨⟨hexchanged.unsent, hexchanged.ack, hexchanged.drain⟩, fun _ ids hids => ?_⟩
      obtain ⟨_, hids⟩ := hids
      simp [hs.waiting] at hids
    · simp [hs.completed] at hc
  apply leadsTo_bind hinv (leadsTo_send _ hinv hs)
  intro _ s hinv hs
  apply leadsTo_bind hinv (took_expect hs hinv)
  intro m s hinv hs
  cases m with
  | wantRevisions vaultId' theirWants =>
    have htook := hs _ _ rfl
    apply leadsTo_bind hinv (ending_exchangeRevisions deps htook hinv)
    intro _ s hinv hs
    apply leadsTo_bind hinv (leadsTo_send _ hinv hs)
    intro _ s hinv hs
    apply leadsTo_bind hinv (ending_awaitCompletion hs hinv)
    intro _ s hinv hs
    apply leadsTo_bind hinv (ending_awaitInbound hs hinv)
    intro _ s hinv hs
    have hrecord : ∀ p : Async Peer PeerEvent Failure Unit, StoreOnly (fun _ => True) p →
        LeadsTo (fun _ => Ending) p s := fun p hp => leadsTo_storeOnly ending_lasts hp hinv hs
    have hend : ∀ t : Peer, Bounded t.session → Ending t.session →
        LeadsTo (fun _ _ => True) (do
          let sides ← SyncSession.readSession 0 fun s => (s.received, s.sent, s.expected)
          let divergence ← SyncSession.classify vaultId (buildGraph (summaryNodes summary)) remoteHead
          return (⟨vaultId, remote, sides.1, sides.2.1, sides.2.2, divergence, remoteHead⟩ :
            SessionResult)) t := by
      intro t hinv ht
      apply leadsTo_bind hinv (leadsTo_readSession _ hinv ht)
      intro sides t hinv ht
      obtain ⟨received, sent, missing⟩ := sides
      refine leadsTo_bind hinv
        (leadsTo_storeOnly ending_lasts (storeOnly_classify _ _ _) hinv ht) fun _ _ _ _ => ?_
      trivial
    dsimp only
    cases remoteHead with
    | some head =>
      exact leadsTo_bind hinv (hrecord _ (storeOnly_recordPeerHead _ _ _ _)) fun _ t hinv ht =>
        hend t hinv ht
    | none => exact hend s hinv hs
  | _ => trivial

theorem safe_runToEnd (config : SessionDeps) (hs : Opening s.session) (hinv : Bounded s.session) :
    Safe runContract (fun _ _ => True) (fun _ _ => True) (runToEnd config) s := by
  have hend : ∀ (result : Except Failure SessionResult) (t : Peer), Bounded t.session →
      Safe runContract (fun _ _ => True) (fun _ _ => True)
        (SyncSession.update 0 fun s => { s with outcome := some result } :
          Async Peer PeerEvent Failure Unit) t := by
    intro result t hinv
    apply leadsTo_update (P := fun _ => True) rfl _ trivial
    exact ⟨hinv.rejected, fun _ hr => (by cases hr), fun _ hr => (by cases hr)⟩
  apply Safe.bind
  apply Safe.attempt
  exact ((leadsTo_run config hs hinv).with_inv hinv).mono (fun a t h => hend (.ok a) t h.2)
    fun e t h => hend (.error e) t h.2

end Run

/-! ## Ingests -/

/-- Nothing but the start of an ingest sets `ingesting`. -/
def Unstarted (s t : Peer) : Prop := t.session.ingesting = true → s.session.ingesting = true

def IngestDone (s : Peer) : Prop := s.session.ingesting = false

/-- The ingests of a pool: no program under way is to start one, and one that is under way goes
on to its end. -/
structure Ingests (w : Pool Peer PeerEvent Failure) : Prop where
  unstarted : ∀ j p, 0 < j → w.tasks[j]? = some p → Framed Unstarted (fun _ => True) p
  owed : w.state.session.ingesting = true →
    ∃ j ready next, 0 < j ∧ w.tasks[j]? = some (.await ready next) ∧ Owes IngestDone next


section Ingests

variable {deps : EngineDeps} {s : Peer} {α : Type}

theorem unstarted_refl (s : Peer) : Unstarted s s := fun h => h

theorem unstarted_of_steps {s t : Peer} (h : Relation.ReflTransGen Unstarted s t) :
    Unstarted s t := by
  induction h with
  | refl => exact unstarted_refl s
  | tail _ hstep ih => exact fun h => ih (hstep h)

/-- A program that starts no ingest. -/
abbrev StartsNone (p : Async Peer PeerEvent Failure α) : Prop :=
  Framed Unstarted (fun _ => True) p

theorem startsNone_onSession {f : Session → Session × List Output}
    (h : ∀ s, (f s).1.ingesting = true → s.ingesting = true) :
    StartsNone (SyncSession.onSession 0 f) :=
  fun s => ⟨h s.session, fun _ _ => trivial, trivial⟩

theorem startsNone_storeOnly {p : Async Peer PeerEvent Failure α}
    (hp : StoreOnly (fun _ => True) p) :
    StartsNone p :=
  hp.mono (fun _ _ hst h => Peer.session_storeStep hst ▸ h) fun _ _ => trivial

theorem ingesting_notifyProgress (s : Session) : s.notifyProgress.ingesting = s.ingesting := by
  unfold Session.notifyProgress
  split
  · split <;> rfl
  · rfl

theorem ingesting_reject (id : RevisionId) (reason : String) (s : Session) :
    (s.reject id reason).1.ingesting = s.ingesting := ingesting_notifyProgress _

theorem ingesting_accepted (id : RevisionId) (s : Session) :
    (s.accepted id).1.ingesting = s.ingesting := ingesting_notifyProgress _

theorem ingesting_onFrame (frame : ChunkFrame) (s : Session) :
    (s.onFrame frame).1.ingesting = s.ingesting := by
  unfold Session.onFrame
  split
  · split <;> rfl
  · split
    · exact ingesting_reject _ _ _
    · split <;> rfl

theorem ingesting_releaseOrphans (seq n : Nat) (s : Session) :
    (s.releaseOrphans seq n).1.ingesting = s.ingesting := by
  induction n generalizing s with
  | zero => rfl
  | succ n ih =>
    unfold Session.releaseOrphans
    split
    · split
      · exact (ih _).trans (ingesting_onFrame _ _)
      · exact ih s
    · exact ih s

theorem ingesting_onHeader (header : InboundHeader) (s : Session) :
    (s.onHeader header).1.ingesting = s.ingesting := by
  unfold Session.onHeader
  split
  · rfl
  · exact ingesting_releaseOrphans _ _ _

theorem ingesting_accept (payload : Except Failure Message) (s : Session) :
    (s.accept payload).1.ingesting = s.ingesting := by
  unfold Session.accept
  split
  · rfl
  · rfl
  · split
    · rfl
    · exact ingesting_onHeader _ _
  · dsimp only [Session.onAck]
    split <;> rfl
  · exact ingesting_notifyProgress _
  · dsimp only [Session.onCancel]
    split
    · rfl
    · exact ingesting_notifyProgress _
  · dsimp only [Session.enqueue]
    split
    · split <;> rfl
    · rfl

theorem ingesting_acceptBulk (frame : Bytes) (s : Session) :
    (s.acceptBulk frame).1.ingesting = s.ingesting := by
  unfold Session.acceptBulk
  split
  · exact ingesting_onFrame _ _
  · rfl

theorem ingesting_timeout (s : Session) : s.timeout.ingesting = s.ingesting := by
  unfold Session.timeout
  split <;> rfl

theorem startsNone_ingestOrReject (now : Nat) (inbound : InboundHeader) (bytes : Bytes) :
    StartsNone (SyncSession.ingestOrReject 0 deps now inbound bytes) := by
  have hreject : ∀ reason,
      StartsNone (SyncSession.onSession 0 (·.reject inbound.header.revisionId reason)) :=
    fun reason => startsNone_onSession fun s h => ingesting_reject _ reason s ▸ h
  refine Framed.bind (fun result => ?_) (Framed.attempt ?_)
  · cases result with
    | ok _ => trivial
    | error e => exact hreject _
  · refine Framed.bind (fun result => ?_)
      (startsNone_storeOnly (storeOnly_ingest _ _ fun _ _ => trivial))
    split
    · exact hreject _
    · exact startsNone_onSession fun s h => ingesting_accepted _ s ▸ h

theorem startsNone_callback {e : PeerEvent} {f : Session → Session × List Output}
    (h : ∀ s, (f s).1.ingesting = s.ingesting) : StartsNone (callback e f) :=
  fun s => ⟨fun ht => h s.session ▸ ht, fun _ _ => trivial, trivial⟩

/-- What is started either starts no ingest, or is one: it has begun at once, and is still to end. -/
theorem started_ingest (command : PeerCommand) {p : Async Peer PeerEvent Failure Unit}
    (hp : peerSystem deps command s = some p) :
    StartsNone p ∨ Owes IngestDone p ∧
      ∃ f, ∃ rest : Async Peer PeerEvent Failure Unit,
        p = .act f (fun _ => rest) ∧ StartsNone rest := by
  have hupdate : ∀ f : Session → Session, (∀ s, (f s).ingesting = s.ingesting) →
      StartsNone (SyncSession.update 0 f) := fun f hf =>
    startsNone_onSession fun s h => hf s ▸ h
  cases command with
  | control payload =>
    cases hp
    exact .inl (startsNone_callback (ingesting_accept payload))
  | bulk frame =>
    cases hp
    exact .inl (startsNone_callback (ingesting_acceptBulk frame))
  | close =>
    cases hp
    exact .inl (startsNone_callback fun _ => rfl)
  | timeout =>
    rw [peerSystem] at hp
    split at hp
    · cases hp
      exact .inl (hupdate _ ingesting_timeout)
    · cases hp
  | buffered bytes =>
    cases hp
    exact .inl (hupdate _ fun _ => rfl)
  | closeBulk =>
    cases hp
    exact .inl (hupdate _ fun _ => rfl)
  | ingestNext now =>
    rw [peerSystem] at hp
    split at hp
    · cases hp
    · obtain ⟨⟨inbound, bytes⟩, -, rfl⟩ := Option.map_eq_some_iff.mp hp
      let finish : Async Peer PeerEvent Failure Unit :=
        SyncSession.update 0 fun s => { s with ingesting := false, ingested := s.ingested + 1 }
      have hends : ∀ result : Except Failure Unit, Owes IngestDone ((fun _ => finish) result) :=
        fun _ _ => .inr ⟨rfl, (), rfl⟩
      refine .inr ⟨fun s => .inl (Owes.attempt hends _), _,
        (SyncSession.ingestOrReject 0 deps now inbound bytes).attempt >>= fun _ => finish, rfl, ?_⟩
      refine Framed.bind (fun _ => ?_) (startsNone_ingestOrReject now inbound bytes).attempt
      exact startsNone_onSession fun s h => by cases h

theorem Ingests.step {w w' : Pool Peer PeerEvent Failure} {move : Move PeerCommand}
    {trace : List (Peer × PeerEvent)} (hw : Ingests w) (hnonempty : 0 < w.tasks.length)
    (hstep : w.step (peerSystem deps) move = some (w', trace))
    (hrun : move = .resume 0 → w'.state.session.ingesting = w.state.session.ingesting) :
    Ingests w' := by
  -- An ingest that is under way stays so or ends; one that was not is started by this step.
  have howed : (w.state.session.ingesting = false → w'.state.session.ingesting = true →
      ∃ j ready next, 0 < j ∧ w'.tasks[j]? = some (.await ready next) ∧ Owes IngestDone next) →
      w'.state.session.ingesting = true →
      ∃ j ready next, 0 < j ∧ w'.tasks[j]? = some (.await ready next) ∧
        Owes IngestDone next := by
    intro hnew ht
    cases hs : w.state.session.ingesting with
    | false => exact hnew hs ht
    | true =>
      obtain ⟨j, ready, next, hj, htask, howes⟩ := hw.owed hs
      rcases Pool.step_owes hstep htask howes with hgoal | ⟨ready', next', htask', howes'⟩
      · exact absurd (show w'.state.session.ingesting = false from hgoal) (by simp [ht])
      · exact ⟨j, ready', next', hj, htask', howes'⟩
  cases move with
  | start command =>
    rw [Pool.step] at hstep
    split at hstep
    · cases hstep
    rename_i p hp
    split at hstep
    rename_i q t trace' hadvance
    cases hstep
    have hnew : StartsNone q ∧ (w.state.session.ingesting = false → t.session.ingesting = true →
        ∃ ready next, q = .await ready next ∧ Owes IngestDone next) := by
      rcases started_ingest command hp with hnone | ⟨howes, f, rest, rfl, hrest⟩
      · obtain ⟨hkeep, hq⟩ := hnone.advance hadvance
        exact ⟨hq, fun hs ht => absurd (unstarted_of_steps hkeep ht) (by simp [hs])⟩
      · refine ⟨?_, fun _ ht => ?_⟩
        · rw [Async.advance] at hadvance
          cases hnext : rest.advance (f w.state).1 with
          | mk q' x =>
            rw [hnext] at hadvance
            cases hadvance
            exact (hrest.advance hnext).2
        · rcases howes.advance hadvance with hgoal | hq
          · exact absurd (show t.session.ingesting = false from hgoal) (by simp [ht])
          · exact hq
    refine ⟨fun j p' hj hp' => ?_, howed fun hs ht => ?_⟩
    · rw [List.getElem?_append] at hp'
      split at hp'
      · exact hw.unstarted j p' hj hp'
      · obtain ⟨-, rfl⟩ := List.getElem?_eq_some_iff.mp hp'
        simpa using hnew.1
    · obtain ⟨ready, next, rfl, howes⟩ := hnew.2 hs ht
      exact ⟨w.tasks.length, ready, next, hnonempty, by simp, howes⟩
  | resume task =>
    rw [Pool.step] at hstep
    split at hstep
    · rename_i ready next htask
      split at hstep
      · split at hstep
        rename_i q t trace' hadvance
        cases hstep
        have hq : 0 < task → StartsNone q ∧ Unstarted w.state t := by
          intro hpos
          obtain ⟨hkeep, hq⟩ := (hw.unstarted task _ hpos htask).2.advance hadvance
          exact ⟨hq, unstarted_of_steps hkeep⟩
        refine ⟨fun j p' hj hp' => ?_, howed fun hs ht => ?_⟩
        · rw [List.getElem?_set] at hp'
          split at hp'
          · rename_i htj
            subst htj
            split at hp'
            · cases hp'
              exact (hq hj).1
            · cases hp'
          · exact hw.unstarted j p' hj hp'
        · exfalso
          rcases Nat.eq_zero_or_pos task with rfl | hpos
          · cases hs.symm.trans ((hrun rfl).symm.trans ht)
          · exact absurd ((hq hpos).2 ht) (by simp [hs])
      · cases hstep
    · cases hstep

end Ingests

/-! ## No session is stuck -/

/-- The contract at each place of the pool. -/
def sessionContract (i : Nat) : Contract Peer PeerEvent :=
  if i = 0 then runContract else othersContract

section

variable {deps : EngineDeps} {config : SessionDeps} {w : Pool Peer PeerEvent Failure}

theorem sessionContract_succ {i : Nat} (h : 0 < i) : sessionContract i = othersContract :=
  if_neg (Nat.ne_of_gt h)

theorem keeps_session (deps : EngineDeps) : Keeps sessionContract 1 (peerSystem deps) where
  refl i s := by
    unfold sessionContract
    split
    · exact ByOthers.refl s.session
    · trivial
  trans i s t u hst htu := by
    cases i with
    | zero => exact ByOthers.trans hst htu
    | succ i =>
      rw [sessionContract_succ (Nat.succ_pos i)]
      trivial
  guar i j hij s events t h := by
    unfold sessionContract at *
    split
    · rename_i hj
      rw [if_neg (hj ▸ hij)] at h
      exact h
    · trivial
  given i s t := by
    unfold sessionContract
    split <;> trivial
  inv i j s h := by
    unfold sessionContract at *
    split at h <;> split <;> exact h
  cond i j s e h := by
    unfold sessionContract at *
    split at h <;> split <;> exact h
  prop i j s e _ := by
    unfold sessionContract
    split <;> trivial
  start i hi command s p hinv hp := by
    rw [sessionContract_succ hi] at *
    exact start_others command hinv hp

theorem sound_starting (h : Starting config w) : w.Sound sessionContract 1 := by
  obtain ⟨hsession, htasks⟩ := h
  have hopening : Opening w.state.session := by
    rw [hsession]
    exact ⟨rfl, rfl, rfl, rfl, rfl, rfl⟩
  refine ⟨by simp [htasks], fun i => ?_, fun i p hp => ?_⟩
  · have hbounded : Bounded w.state.session := by
      rw [hsession]
      exact .of_unended rfl rfl
    unfold sessionContract
    split <;> exact hbounded
  · rw [htasks] at hp
    cases i with
    | succ i => simp at hp
    | zero =>
      cases hp
      intro t hst hinvt u htu hinvu
      refine ⟨fun _ => rfl, fun _ => safe_runToEnd config ?_ hinvu⟩
      exact opening_lasts _ _ hinvu htu (opening_lasts _ _ hinvt hst hopening)

theorem ingesting_steps {s t : Peer} (h : (sessionContract 0).Steps s t) :
    t.session.ingesting = s.session.ingesting := by
  induction h with
  | refl => rfl
  | tail _ hlast ih =>
    obtain ⟨_, hguar⟩ := hlast
    exact Eq.trans hguar ih

theorem reach_ingests (h : Reach (peerSystem deps) (Starting config) Timely w) :
    w.Sound sessionContract 1 ∧ Ingests w := by
  induction h with
  | init w h =>
    refine ⟨sound_starting h, fun j p hj hp => ?_, fun hs => ?_⟩
    · rw [h.2, List.getElem?_eq_none (by simpa using Nat.succ_le_of_lt hj)] at hp
      cases hp
    · rw [h.1] at hs
      cases hs
  | step hreach hstep hcond ih =>
    obtain ⟨hsound, hingests⟩ := ih
    refine ⟨((keeps_session deps).step hsound hstep hcond).2,
      hingests.step hsound.size hstep fun hmove => ?_⟩
    subst hmove
    exact ingesting_steps ((keeps_session deps).resumed hsound hstep hcond)

/-- However the peer behaves, no session gets stuck, as long as what would end it comes in time. -/
theorem never_stuck (deps : EngineDeps) (config : SessionDeps) {w : Pool Peer PeerEvent Failure}
    (h : Reach (peerSystem deps) (Starting config) Timely w) : ¬ Stuck deps w := by
  intro hstuck
  obtain ⟨hsound, hingests⟩ := reach_ingests h
  have hresume : ∀ {j : Nat} {ready : Peer → Bool} {next : Async Peer PeerEvent Failure Unit},
      w.tasks[j]? = some (.await ready next) → ready w.state ≠ true := by
    intro j ready next htask hready
    have hquiet := hstuck.quiet (.resume j) trivial
    rw [Pool.step, htask] at hquiet
    simp [hready] at hquiet
  have hidle : w.state.session.ingesting = false := by
    cases hs : w.state.session.ingesting with
    | false => rfl
    | true =>
      obtain ⟨j, ready, next, hj, htask, -⟩ := hingests.owed hs
      refine absurd ((keeps_session deps).ready hsound htask ?_) (hresume htask)
      rw [sessionContract_succ hj]
      trivial
  have hdone : w.state.session.inboundWork = [] := by
    have hquiet := hstuck.quiet (.start (.ingestNext 0)) trivial
    cases hs : w.state.session.inboundWork with
    | nil => rfl
    | cons first rest => simp [Pool.step, peerSystem, hidle, hs] at hquiet
  obtain ⟨ready, next, htask⟩ := hstuck.unsettled
  exact hresume htask ((keeps_session deps).ready hsound htask
    ⟨hstuck.ended, hstuck.untimed, hdone, hidle⟩)

end

/-! ## A session that gets stuck -/

def deskDeps : EngineDeps := ⟨fun _ => ⟨"0"⟩, fun _ _ _ => .mergeFailed "", ⟨"desk"⟩⟩

/-- A session of a device that holds no vault yet. -/
def deskConfig : SessionDeps where
  vaultId := none
  auth := ⟨⟨"desk"⟩, "desk", [0], [0], fun _ _ _ => [0], fun _ _ _ _ name => .ok name⟩
  chunkBytes := 1024
  highWaterBytes := 1024
  now := 0

def deskStart : Pool Peer PeerEvent Failure :=
  ⟨⟨.empty, .new⟩, [.await (fun _ => true) (runToEnd deskConfig)]⟩

/-- The control channel closes before anything is received. -/
def deskClosed : Pool Peer PeerEvent Failure :=
  ⟨⟨.empty, Session.new.onClose⟩, [.await (fun _ => true) (runToEnd deskConfig), .done ()]⟩

theorem never_stuck_deskClosed : ¬ Stuck deskDeps deskClosed := by
  have hstep : deskStart.step (peerSystem deskDeps) (.start .close) =
      some (deskClosed, [(deskStart.state, .closed)]) := rfl
  refine never_stuck deskDeps deskConfig (.step (.init deskStart ⟨rfl, rfl⟩) hstep ?_)
  intro x hx
  obtain rfl := List.mem_singleton.mp hx
  intro _
  refine ⟨⟨rfl, fun _ h => (by cases h), fun h => (by cases h)⟩, ?_⟩
  rintro - ids ⟨_, hids⟩
  cases hids

def isStuck (deps : EngineDeps) (w : Pool Peer PeerEvent Failure) : Bool :=
  (w.state.session.failure.isSome || w.state.session.peerCompleted) &&
  !w.state.session.timerArmed && (w.state.session.ingesting || w.state.session.inboundWork.isEmpty) &&
  (List.range w.tasks.length).all (fun j => (w.step (peerSystem deps) (.resume j)).isNone) &&
  match w.tasks with
  | .await _ _ :: _ => true
  | _ => false

theorem stuck_of_isStuck {deps : EngineDeps} {w : Pool Peer PeerEvent Failure}
    (h : isStuck deps w = true) : Stuck deps w := by
  simp only [isStuck, Bool.and_eq_true, Bool.or_eq_true, Bool.not_eq_true', List.all_eq_true,
    List.mem_range] at h
  obtain ⟨⟨⟨⟨hended, huntimed⟩, hidle⟩, hquiet⟩, hwaits⟩ := h
  refine ⟨hended, fun move hmove => ?_, huntimed, ?_⟩
  · cases move with
    | resume j => exact Pool.resume_eq_none hquiet j
    | start command =>
      cases command with
      | ingestNext now =>
        rcases hidle with h | h
        · simp [Pool.step, peerSystem, h]
        · simp [Pool.step, peerSystem, List.isEmpty_iff.mp h]
      | _ => exact hmove.elim
  · split at hwaits
    · rename_i ready next _ htasks
      exact ⟨ready, next, by simp [htasks]⟩
    · cases hwaits

/-- The phone offers a revision and closes the control channel once the desk has asked for it. -/
def phoneCloses : List (Move PeerCommand) :=
  let phone message := Move.start (PeerCommand.control (parseMessage message))
  [.resume 0, phone (.hello protocolVersion ⟨"phone"⟩ "phone" "AA==" "AA=="),
    .resume 0, .resume 0, phone (.auth "AA=="),
    .resume 0, .resume 0, phone (.vaultSummary ⟨"vault"⟩ "vault" (some ⟨"r"⟩) 1),
    .resume 0, .resume 0, .resume 0, .resume 0,
    phone (.historySummary ⟨"vault"⟩
      [⟨⟨"r"⟩, ⟨String.ofList (List.replicate 64 '0')⟩, 0, []⟩]),
    .resume 0, .resume 0, phone (.wantRevisions ⟨"vault"⟩ []), .resume 0, .start .close]

theorem stuck_phoneCloses :
    ∃ w, Reach (peerSystem deskDeps) (Starting deskConfig) (fun _ _ => True) w ∧
      Stuck deskDeps w := by
  have hplay : (deskStart.play (peerSystem deskDeps) phoneCloses).map (isStuck deskDeps) =
      some true := by decide +kernel
  obtain ⟨w, hw, hstuck⟩ := Option.map_eq_some_iff.mp hplay
  exact ⟨w, (Reach.init deskStart ⟨rfl, rfl⟩).play hw, stuck_of_isStuck hstuck⟩

end SessionEnd

end PassVault
