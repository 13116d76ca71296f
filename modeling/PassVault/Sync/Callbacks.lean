import PassVault.Sync.Peer

/-!
# What the callbacks of a session do

Each callback is a few elementary steps: a frame is put aside or taken up, a transfer begins, goes
on, ends or is rejected, or nothing changes that concerns inbound transfers. An invariant of these
steps is an invariant of every callback.
-/

namespace PassVault

namespace Session

/-- The sessions differ in nothing that concerns inbound transfers. -/
def SameInbound (s t : Session) : Prop :=
  t.assemblers = s.assemblers ∧ t.orphanFrames = s.orphanFrames ∧
    t.inboundWork = s.inboundWork ∧ t.remoteDeviceId = s.remoteDeviceId

instance (s t : Session) : Decidable (s.SameInbound t) :=
  inferInstanceAs (Decidable (_ ∧ _))

theorem SameInbound.refl (s : Session) : s.SameInbound s := ⟨rfl, rfl, rfl, rfl⟩

theorem SameInbound.trans {s t u : Session} (h : s.SameInbound t) (h' : t.SameInbound u) :
    s.SameInbound u :=
  ⟨h'.1.trans h.1, h'.2.1.trans h.2.1, h'.2.2.1.trans h.2.2.1, h'.2.2.2.trans h.2.2.2⟩

/-- What only the programs of a session change. -/
def SameResult (s t : Session) : Prop := t.received = s.received ∧ t.outcome = s.outcome

theorem SameResult.trans {s t u : Session} (h : s.SameResult t) (h' : t.SameResult u) :
    s.SameResult u :=
  ⟨h'.1.trans h.1, h'.2.trans h.2⟩

/-- The message is queued, or handed to the waiter. -/
def Hears (s : Session) (message : Message) : Prop :=
  message ∈ s.queued ∨ s.waiting = .settled (.ok message)

/-- One elementary step of a callback that begins no transfer and queues no message. -/
inductive FrameStep (s : Session) : Session → Prop where
  | same {t : Session} (h : s.SameInbound t) (hqueued : t.queued = s.queued)
      (hresult : s.SameResult t)
      (hheard : ∀ message, t.Hears message → message.type = .syncComplete ∨ s.Hears message) :
    FrameStep s t
  | orphan (frame : ChunkFrame) (hroom : s.orphanFrames.length < maxOrphanFrames) :
    FrameStep s { s with orphanFrames := s.orphanFrames ++ [frame] }
  | release (index : Nat) : FrameStep s { s with orphanFrames := s.orphanFrames.eraseIdx index }
  | chunk (transferSeq : Nat) (frame : ChunkFrame) (header : InboundHeader)
      (assembler after : ChunkAssembler) (hmem : (transferSeq, header, assembler) ∈ s.assemblers)
      (haccept : assembler.accept frame = (after, true)) :
    FrameStep s (s.setAssembler transferSeq header after)
  | complete (transferSeq : Nat) (frame : ChunkFrame) (header : InboundHeader)
      (assembler after : ChunkAssembler) (hmem : (transferSeq, header, assembler) ∈ s.assemblers)
      (haccept : assembler.accept frame = (after, true)) (hcomplete : after.isComplete = true) :
    FrameStep s ((s.dropAssembler transferSeq).queueIngest header after.assemble)
  | drop (transferSeq : Nat) : FrameStep s (s.dropAssembler transferSeq)

/-- One elementary step of any callback. -/
inductive InboundStep (s : Session) : Session → Prop where
  | frame {t : Session} (h : FrameStep s t) : InboundStep s t
  | start (header : RevisionHeader) (fromDeviceId : DeviceId) (assembler : ChunkAssembler)
      (hremote : s.remoteDeviceId = some fromDeviceId)
      (hcreate : ChunkAssembler.create header.totalChunks header.sizeBytes = .ok assembler) :
    InboundStep s (s.setAssembler header.transferSeq ⟨header, fromDeviceId⟩ assembler)
  | enqueue (message : Message) : InboundStep s (s.enqueue message)

/-- Any number of them. -/
abbrev FrameSteps : Session → Session → Prop := Relation.ReflTransGen FrameStep

abbrev InboundSteps : Session → Session → Prop := Relation.ReflTransGen InboundStep

theorem FrameSteps.inbound {s t : Session} (h : FrameSteps s t) : InboundSteps s t := by
  induction h with
  | refl => exact .refl
  | tail _ hlast ih => exact ih.tail (.frame hlast)

/-- What every elementary step preserves, a number of them does. -/
theorem keeps_steps {step : Session → Session → Prop} {P : Session → Prop}
    (hstep : ∀ s t, step s t → P s → P t) {s t : Session} (h : Relation.ReflTransGen step s t)
    (hs : P s) : P t := by
  induction h with
  | refl => exact hs
  | tail _ hlast ih => exact hstep _ _ hlast ih

theorem sameInbound_notifyProgress (s : Session) : s.SameInbound s.notifyProgress := by
  unfold notifyProgress
  split
  · split
    · exact ⟨rfl, rfl, rfl, rfl⟩
    · exact .refl s
  · exact .refl s

theorem queued_notifyProgress (s : Session) : s.notifyProgress.queued = s.queued := by
  unfold notifyProgress
  split
  · split
    · rfl
    · rfl
  · rfl

theorem hears_notifyProgress (s : Session) : s.notifyProgress.Hears = s.Hears := by
  unfold notifyProgress
  split
  · split
    · rfl
    · rfl
  · rfl

theorem sameResult_notifyProgress (s : Session) : s.SameResult s.notifyProgress := by
  unfold notifyProgress
  split
  · split
    · exact ⟨rfl, rfl⟩
    · exact ⟨rfl, rfl⟩
  · exact ⟨rfl, rfl⟩

theorem sameInbound_dropExpected (revisionId : RevisionId) (s : Session) :
    s.SameInbound (s.dropExpected revisionId) := ⟨rfl, rfl, rfl, rfl⟩

theorem sameInbound_reject (revisionId : RevisionId) (reason : String) (s : Session) :
    s.SameInbound (s.reject revisionId reason).1 :=
  (sameInbound_dropExpected revisionId s).trans (sameInbound_notifyProgress _)

theorem sameInbound_accepted (revisionId : RevisionId) (s : Session) :
    s.SameInbound (s.accepted revisionId).1 :=
  sameInbound_notifyProgress
    { s.dropExpected revisionId with received := s.received ++ [revisionId] }

theorem find_assembler {s : Session} {transferSeq key : Nat} {header : InboundHeader}
    {assembler : ChunkAssembler}
    (h : s.assemblers.find? (·.1 = transferSeq) = some (key, header, assembler)) :
    (transferSeq, header, assembler) ∈ s.assemblers := by
  have hkey : key = transferSeq := by simpa using List.find?_some h
  exact hkey ▸ List.mem_of_find?_eq_some h

theorem steps_onFrame (frame : ChunkFrame) (s : Session) : FrameSteps s (s.onFrame frame).1 := by
  unfold onFrame
  split
  · split
    · rename_i hroom
      exact .single (.orphan frame hroom)
    · exact .refl
  · rename_i key header assembler hfind
    have hmem := find_assembler hfind
    split
    · have hreject := sameInbound_reject header.header.revisionId
        "chunk exceeded the declared size" (s.dropAssembler frame.transferSeq)
      have hresult := sameResult_notifyProgress
        ((s.dropAssembler frame.transferSeq).dropExpected header.header.revisionId)
      have hheard := hears_notifyProgress
        ((s.dropAssembler frame.transferSeq).dropExpected header.header.revisionId)
      exact .tail (.single (.drop _)) (.same hreject (queued_notifyProgress _) hresult
        fun message h => .inr (congrFun hheard message ▸ h))
    · rename_i after haccept
      split
      · rename_i hcomplete
        exact .single (.complete _ frame header assembler after hmem haccept hcomplete)
      · exact .single (.chunk _ frame header assembler after hmem haccept)

theorem steps_releaseOrphans (transferSeq count : Nat) (s : Session) :
    FrameSteps s (releaseOrphans transferSeq count s).1 := by
  induction count generalizing s with
  | zero => exact .refl
  | succ index ih =>
    unfold releaseOrphans
    split
    · split
      · exact .trans (.head (.release index) (steps_onFrame _ _)) (ih _)
      · exact ih s
    · exact ih s

theorem steps_onCancel (transferSeq : Nat) (reason : String) (s : Session) :
    FrameSteps s (s.onCancel transferSeq reason).1 := by
  unfold onCancel
  split
  · exact .refl
  · rename_i header _ _
    have hdrop := sameInbound_dropExpected header.header.revisionId (s.dropAssembler transferSeq)
    have hresult := sameResult_notifyProgress
      ((s.dropAssembler transferSeq).dropExpected header.header.revisionId)
    have hheard := hears_notifyProgress
      ((s.dropAssembler transferSeq).dropExpected header.header.revisionId)
    exact .tail (.single (.drop _))
      (.same (hdrop.trans (sameInbound_notifyProgress _)) (queued_notifyProgress _) hresult
        fun message h => .inr (congrFun hheard message ▸ h))

/-- An answer of the inbound side. -/
def Answer (output : Output) : Prop :=
  (∃ revisionId accepted reason, output = .control (.revisionAck revisionId accepted reason)) ∨
    (∃ revisionId reason, output = .event (.rejected revisionId reason)) ∨
    ∃ revisionId, output = .event (.received revisionId)

theorem answer_reject (revisionId : RevisionId) (reason : String) (s : Session) :
    ∀ output ∈ (s.reject revisionId reason).2, Answer output := by
  intro output hmem
  simp only [reject, List.mem_cons, List.not_mem_nil, or_false] at hmem
  rcases hmem with rfl | rfl
  · exact .inl ⟨_, _, _, rfl⟩
  · exact .inr (.inl ⟨_, _, rfl⟩)

theorem answer_accepted (revisionId : RevisionId) (s : Session) :
    ∀ output ∈ (s.accepted revisionId).2, Answer output := by
  intro output hmem
  simp only [accepted, List.mem_cons, List.not_mem_nil, or_false] at hmem
  rcases hmem with rfl | rfl
  · exact .inl ⟨_, _, _, rfl⟩
  · exact .inr (.inr ⟨_, rfl⟩)

theorem answer_onFrame (frame : ChunkFrame) (s : Session) :
    ∀ output ∈ (s.onFrame frame).2, Answer output := by
  unfold onFrame
  split
  · split
    · simp
    · simp
  · split
    · exact answer_reject _ _ _
    · split
      · simp
      · simp

theorem answer_releaseOrphans (transferSeq count : Nat) (s : Session) :
    ∀ output ∈ (releaseOrphans transferSeq count s).2, Answer output := by
  induction count generalizing s with
  | zero => simp [releaseOrphans]
  | succ index ih =>
    unfold releaseOrphans
    split
    · split
      · intro output hmem
        rcases List.mem_append.mp hmem with hmem | hmem
        · exact answer_onFrame _ _ output hmem
        · exact ih _ output hmem
      · exact ih s
    · exact ih s

/-- What a control callback puts on a channel answers an inbound transfer. -/
theorem answer_accept (payload : Except Failure Message) (s : Session) :
    ∀ output ∈ (s.accept payload).2, Answer output := by
  unfold accept
  split
  · simp
  · simp
  · split
    · simp
    · unfold onHeader
      split
      · simp
      · exact answer_releaseOrphans _ _ _
  · simp
  · simp
  · unfold onCancel
    split
    · simp
    · intro output hmem
      rw [List.mem_singleton.mp hmem]
      exact .inr (.inl ⟨_, _, rfl⟩)
  · simp

theorem answer_acceptBulk (frame : Bytes) (s : Session) :
    ∀ output ∈ (s.acceptBulk frame).2, Answer output := by
  unfold acceptBulk
  split
  · exact answer_onFrame _ _
  · simp

theorem step_fail (error : Failure) (s : Session) : FrameStep s (s.fail error) := by
  refine .same ⟨rfl, rfl, rfl, rfl⟩ rfl ⟨rfl, rfl⟩ fun message h => .inr (h.imp id fun h => ?_)
  simp only [fail] at h
  split at h
  · cases h
  · exact h

theorem step_onAck (revisionId : RevisionId) (accepted : Bool) (reason : Option String)
    (s : Session) : FrameStep s (s.onAck revisionId accepted reason) := by
  unfold onAck
  split
  · exact .same ⟨rfl, rfl, rfl, rfl⟩ rfl ⟨rfl, rfl⟩ fun _ => .inr
  · exact .same (.refl s) rfl ⟨rfl, rfl⟩ fun _ => .inr

theorem step_onComplete (message : Message) (hmessage : message.type = .syncComplete)
    (s : Session) : FrameStep s (s.onComplete message) := by
  rw [onComplete_eq]
  generalize hafter : s.peerDone message = after
  have hsame : s.SameInbound after := hafter ▸ ⟨rfl, rfl, rfl, rfl⟩
  have hqueued : after.queued = s.queued := hafter ▸ rfl
  have hresult : s.SameResult after := hafter ▸ ⟨rfl, rfl⟩
  refine .same (hsame.trans (sameInbound_notifyProgress after))
    ((queued_notifyProgress after).trans hqueued)
    (hresult.trans (sameResult_notifyProgress after)) fun heard h => ?_
  rw [hears_notifyProgress, ← hafter] at h
  rcases h with h | h
  · exact .inr (.inl h)
  · dsimp only [peerDone] at h
    split at h
    · cases h
      exact .inl hmessage
    · exact .inr (.inr h)

theorem sameInbound_enqueue (message : Message) (s : Session) :
    s.SameInbound (s.enqueue message) := by
  unfold enqueue
  split
  · split
    · exact ⟨rfl, rfl, rfl, rfl⟩
    · exact ⟨rfl, rfl, rfl, rfl⟩
  · exact ⟨rfl, rfl, rfl, rfl⟩

/-- What a control payload leads to: a message is queued or handed to its waiter, a transfer
begins, or neither. -/
theorem accept_cases (payload : Except Failure Message) (s : Session) :
    (∃ message, payload = .ok message ∧ handled message.type = false ∧ message.type ≠ .error ∧
        (s.accept payload).1 = s.enqueue message) ∨
      (∃ header fromDeviceId assembler, payload = .ok (.revisionHeader header) ∧
        s.remoteDeviceId = some fromDeviceId ∧
        ChunkAssembler.create header.totalChunks header.sizeBytes = .ok assembler ∧
        FrameSteps (s.setAssembler header.transferSeq ⟨header, fromDeviceId⟩ assembler)
          (s.accept payload).1) ∨
      FrameSteps s (s.accept payload).1 := by
  unfold accept
  split
  · exact .inr (.inr (.single (step_fail _ s)))
  · exact .inr (.inr (.single (step_fail _ s)))
  · split
    · exact .inr (.inr (.single (step_fail _ s)))
    · rename_i header _ fromDeviceId hremote
      unfold onHeader
      split
      · exact .inr (.inr .refl)
      · rename_i assembler hcreate
        exact .inr (.inl ⟨header, fromDeviceId, assembler, rfl, hremote, hcreate,
          steps_releaseOrphans _ _ _⟩)
  · exact .inr (.inr (.single (step_onAck _ _ _ s)))
  · exact .inr (.inr (.single (step_onComplete _ rfl s)))
  · exact .inr (.inr (steps_onCancel _ _ s))
  · rename_i message herror hheader hack hcomplete hcancel
    refine .inl ⟨message, rfl, ?_, ?_, rfl⟩
    · cases message with
      | revisionHeader header => exact (hheader header rfl).elim
      | revisionAck revisionId accepted reason => exact (hack revisionId accepted reason rfl).elim
      | syncComplete vaultId => exact (hcomplete vaultId rfl).elim
      | transferCancel transferSeq reason => exact (hcancel transferSeq reason rfl).elim
      | hello | auth | vaultSummary | historySummary | wantRevisions | bye | error => rfl
    · rintro htype
      cases message with
      | error code text => exact herror code text rfl
      | hello | auth | vaultSummary | historySummary | wantRevisions | revisionHeader | revisionAck
        | transferCancel | syncComplete | bye => cases htype

/-- A control payload. -/
theorem steps_accept (payload : Except Failure Message) (s : Session) :
    InboundSteps s (s.accept payload).1 := by
  rcases accept_cases payload s with ⟨message, -, -, -, haccept⟩ |
    ⟨header, fromDeviceId, assembler, -, hremote, hcreate, hsteps⟩ | hsteps
  · rw [haccept]
    exact .single (.enqueue message)
  · exact .head (.start header fromDeviceId assembler hremote hcreate) hsteps.inbound
  · exact hsteps.inbound

theorem hears_frameSteps {s t : Session} (h : FrameSteps s t) :
    ∀ message, t.Hears message → message.type = .syncComplete ∨ s.Hears message := by
  refine keeps_steps (P := fun t => ∀ message, t.Hears message → message.type = .syncComplete ∨
    s.Hears message) (fun t u hstep ht => ?_) h fun _ => .inr
  cases hstep with
  | same _ _ _ hheard => exact fun message h => (hheard message h).elim .inl (ht message)
  | orphan | release | chunk | complete | drop => exact ht

/-- What is heard is what was delivered. -/
theorem hears_accept {payload : Except Failure Message} {s : Session} {message : Message}
    (h : (s.accept payload).1.Hears message) :
    message.type = .syncComplete ∨ s.Hears message ∨ payload = .ok message := by
  rcases accept_cases payload s with ⟨heard, rfl, -, -, haccept⟩ |
    ⟨header, fromDeviceId, assembler, -, -, -, hsteps⟩ | hsteps
  · have hqueue : message ∈ s.queued ++ [heard] → s.Hears message ∨ message = heard := fun hmem =>
      (List.mem_append.mp hmem).imp .inl List.mem_singleton.mp
    have hnew : s.Hears message ∨ message = heard := by
      rw [haccept] at h
      unfold enqueue at h
      split at h
      · split at h
        · rcases h with h | h
          · exact .inl (.inl h)
          · cases h
            exact .inr rfl
        · exact h.elim hqueue fun h => .inl (.inr h)
      · exact h.elim hqueue fun h => .inl (.inr h)
    exact .inr (hnew.imp id fun heq => congrArg Except.ok heq.symm)
  · exact (hears_frameSteps hsteps message h).imp id .inl
  · exact (hears_frameSteps hsteps message h).imp id .inl

/-- A payload of the bulk channel. -/
theorem steps_acceptBulk (frame : Bytes) (s : Session) : FrameSteps s (s.acceptBulk frame).1 := by
  unfold acceptBulk
  split
  · exact steps_onFrame _ _
  · exact .refl

/-- No callback says who the other side is. -/
theorem InboundSteps.remoteDeviceId {s t : Session} (h : InboundSteps s t) :
    t.remoteDeviceId = s.remoteDeviceId := by
  refine keeps_steps (P := fun t => t.remoteDeviceId = s.remoteDeviceId) (fun t u hstep ht => ?_)
    h rfl
  cases hstep with
  | frame hframe =>
    cases hframe with
    | same hsame => exact hsame.2.2.2.trans ht
    | orphan | release | chunk | complete | drop => exact ht
  | start => exact ht
  | enqueue message => exact (sameInbound_enqueue message t).2.2.2.trans ht

/-- No callback receives a revision or ends the session. -/
theorem InboundSteps.sameResult {s t : Session} (h : InboundSteps s t) : s.SameResult t := by
  refine keeps_steps (P := fun t => s.SameResult t) (fun t u hstep ht => ?_) h ⟨rfl, rfl⟩
  cases hstep with
  | frame hframe =>
    cases hframe with
    | same _ _ hresult => exact ht.trans hresult
    | orphan | release | chunk | complete | drop => exact ht
  | start => exact ht
  | enqueue message =>
    refine ht.trans ?_
    unfold Session.enqueue
    split
    · split
      · exact ⟨rfl, rfl⟩
      · exact ⟨rfl, rfl⟩
    · exact ⟨rfl, rfl⟩

/-! ## What the programs do -/

/-- A program changes nothing that concerns inbound transfers, and queues nothing. -/
structure ProgramStep (s t : Session) : Prop where
  assemblers : t.assemblers = s.assemblers
  orphanFrames : t.orphanFrames = s.orphanFrames
  inboundWork : t.inboundWork = s.inboundWork
  remoteDeviceId : t.remoteDeviceId = s.remoteDeviceId
  received : t.received = s.received
  outcome : t.outcome = s.outcome
  queued : t.queued.Sublist s.queued
  heard : ∀ message, t.waiting = .settled (.ok message) →
    message.type = .syncComplete ∨ s.Hears message

theorem ProgramStep.refl (s : Session) : ProgramStep s s :=
  ⟨rfl, rfl, rfl, rfl, rfl, rfl, List.Sublist.refl _, fun _ h => .inr (.inr h)⟩

/-- Nothing of it changes, but that the program may begin to wait. -/
theorem ProgramStep.note {s t : Session}
    (h : t.assemblers = s.assemblers ∧ t.orphanFrames = s.orphanFrames ∧
      t.inboundWork = s.inboundWork ∧ t.remoteDeviceId = s.remoteDeviceId ∧
      t.received = s.received ∧ t.outcome = s.outcome ∧ t.queued = s.queued)
    (hwaiting : t.waiting = s.waiting ∨
      ∀ message, t.waiting = .settled (.ok message) → message.type = .syncComplete) :
    ProgramStep s t := by
  obtain ⟨hassemblers, horphans, hwork, hremote, hreceived, houtcome, hqueued⟩ := h
  refine ⟨hassemblers, horphans, hwork, hremote, hreceived, houtcome,
    hqueued ▸ List.Sublist.refl _, fun message hmessage => ?_⟩
  rcases hwaiting with hsame | hcomplete
  · exact .inr (.inr (hsame ▸ hmessage))
  · exact .inl (hcomplete message hmessage)

theorem ProgramStep.same {s t : Session}
    (h : t.assemblers = s.assemblers ∧ t.orphanFrames = s.orphanFrames ∧
      t.inboundWork = s.inboundWork ∧ t.remoteDeviceId = s.remoteDeviceId ∧
      t.received = s.received ∧ t.outcome = s.outcome ∧ t.queued = s.queued ∧
      t.waiting = s.waiting) : ProgramStep s t := by
  obtain ⟨hassemblers, horphans, hwork, hremote, hreceived, houtcome, hqueued, hwaiting⟩ := h
  exact .note ⟨hassemblers, horphans, hwork, hremote, hreceived, houtcome, hqueued⟩ (.inl hwaiting)

theorem ProgramStep.trans {s t u : Session} (h : ProgramStep s t) (h' : ProgramStep t u) :
    ProgramStep s u :=
  ⟨h'.assemblers.trans h.assemblers, h'.orphanFrames.trans h.orphanFrames,
    h'.inboundWork.trans h.inboundWork, h'.remoteDeviceId.trans h.remoteDeviceId,
    h'.received.trans h.received, h'.outcome.trans h.outcome, h'.queued.trans h.queued,
    fun message hmessage => (h'.heard message hmessage).elim .inl fun hheard =>
      hheard.elim (fun hmem => .inr (.inl (h.queued.subset hmem))) (h.heard message)⟩

/-- A program hears nothing new. -/
theorem ProgramStep.hears {s t : Session} (h : ProgramStep s t) {message : Message}
    (ht : t.Hears message) : message.type = .syncComplete ∨ s.Hears message :=
  ht.elim (fun hmem => .inr (.inl (h.queued.subset hmem))) (h.heard message)

theorem programStep_notifyProgress (s : Session) : ProgramStep s s.notifyProgress := by
  unfold notifyProgress
  split
  · split
    · exact .same ⟨rfl, rfl, rfl, rfl, rfl, rfl, rfl, rfl⟩
    · exact .refl s
  · exact .refl s

theorem programStep_reject (revisionId : RevisionId) (reason : String) (s : Session) :
    ProgramStep s (s.reject revisionId reason).1 :=
  .trans (t := s.dropExpected revisionId) (.same ⟨rfl, rfl, rfl, rfl, rfl, rfl, rfl, rfl⟩)
    (programStep_notifyProgress _)

/-- A revision that was ingested is received. -/
theorem programStep_accepted (revisionId : RevisionId) (s : Session) :
    ProgramStep { s with received := s.received ++ [revisionId] } (s.accepted revisionId).1 :=
  .trans (t := { s.dropExpected revisionId with received := s.received ++ [revisionId] })
    (.same ⟨rfl, rfl, rfl, rfl, rfl, rfl, rfl, rfl⟩) (programStep_notifyProgress _)

theorem programStep_expect (type : MessageType) (s : Session) : ProgramStep s (s.expect type) := by
  have hfail : ∀ error, ProgramStep s { s with waiting := .settled (.error error) } := by
    intro error
    exact .note ⟨rfl, rfl, rfl, rfl, rfl, rfl, rfl⟩ (.inr fun _ h => by cases h)
  unfold expect
  split
  · exact hfail _
  · split
    · exact hfail _
    · split
      · rename_i message hfind
        refine ⟨rfl, rfl, rfl, rfl, rfl, rfl, List.eraseP_sublist, fun heard hheard => ?_⟩
        cases hheard
        exact .inr (.inl (List.mem_of_find?_eq_some hfind))
      · exact .note ⟨rfl, rfl, rfl, rfl, rfl, rfl, rfl⟩ (.inr fun _ h => by cases h)

theorem programStep_idle (s : Session) : ProgramStep s { s with waiting := .idle } :=
  .note ⟨rfl, rfl, rfl, rfl, rfl, rfl, rfl⟩ (.inr fun _ h => by cases h)

theorem programStep_onClose (s : Session) : ProgramStep s s.onClose := by
  refine ⟨rfl, rfl, rfl, rfl, rfl, rfl, List.Sublist.refl _, fun message h => ?_⟩
  simp only [onClose, fail] at h
  split at h
  · cases h
  · exact .inr (.inr h)

theorem programStep_timeout (s : Session) : ProgramStep s s.timeout := by
  unfold timeout
  split
  · exact .note ⟨rfl, rfl, rfl, rfl, rfl, rfl, rfl⟩ (.inr fun _ h => by cases h)
  · exact .note ⟨rfl, rfl, rfl, rfl, rfl, rfl, rfl⟩ (.inr fun _ h => by cases h)
  · exact .refl s

end Session

open Async

/-- The answer to the peer's challenge, and the news that the peer answered ours. -/
inductive Proves : PeerEvent → Prop where
  | auth (signature : String) : Proves (.output (.control (.auth signature)))
  | authenticated (deviceId : DeviceId) : Proves (.output (.event (.authenticated deviceId)))

theorem Session.Answer.not_proves {output : Output} (h : Answer output) :
    ¬ Proves (.output output) := by
  rcases h with ⟨_, _, _, rfl⟩ | ⟨_, _, rfl⟩ | ⟨_, rfl⟩ <;> rintro ⟨⟩

/-- An access of a program that stores no revision, and proves nothing. -/
structure ProgramAccess (s : Peer) (events : List PeerEvent) (t : Peer) : Prop where
  step : s.session.ProgramStep t.session
  unsaved : ∀ revision, .engine (.saved revision) ∉ events
  quiet : ∀ e ∈ events, ¬ Proves e

/-- The events of `run` that come from the store. -/
def Unsaving (event : EngineEvent Unit) : Prop := ∀ revision, event ≠ .saved revision

namespace SyncSession

variable {α : Type}

theorem within_onSession {f : Session → Session × List Output}
    (h : ∀ s : Session, s.ProgramStep (f s).1)
    (hquiet : ∀ s, ∀ output ∈ (f s).2, ¬ Proves (.output output)) :
    Within ProgramAccess (onSession 0 f : Async Peer PeerEvent Failure Unit) := by
  refine fun s => ⟨⟨h s.session, fun _ hmem => ?_, fun e hmem => ?_⟩, trivial⟩
  · obtain ⟨_, _, hevent⟩ := List.mem_map.mp hmem
    cases hevent
  · obtain ⟨output, houtput, rfl⟩ := List.mem_map.mp hmem
    exact hquiet s.session output houtput

theorem within_update {f : Session → Session} (h : ∀ s : Session, s.ProgramStep (f s)) :
    Within ProgramAccess (update 0 f : Async Peer PeerEvent Failure Unit) :=
  within_onSession h (by simp)

/-- One thing is put on a channel or told. -/
theorem within_output {f : Session → Session} {output : Output}
    (h : ∀ s : Session, s.ProgramStep (f s)) (hquiet : ¬ Proves (.output output)) :
    Within ProgramAccess (onSession 0 fun s => (f s, [output]) :
      Async Peer PeerEvent Failure Unit) :=
  within_onSession h fun _ _ hmem => List.mem_singleton.mp hmem ▸ hquiet

theorem within_send {message : Message}
    (h : ¬ Proves (.output (.control message))) :
    Within ProgramAccess (send 0 message : Async Peer PeerEvent Failure Unit) :=
  within_output .refl h

theorem within_emit {event : SessionEvent}
    (h : ¬ Proves (.output (.event event))) :
    Within ProgramAccess (emit 0 event : Async Peer PeerEvent Failure Unit) :=
  within_output .refl h

theorem within_readSession (f : Session → α) :
    Within ProgramAccess (readSession 0 f : Async Peer PeerEvent Failure α) :=
  fun s => ⟨⟨.refl s.session, by simp, by simp⟩, trivial⟩

theorem within_storeOnly {p : Async Peer PeerEvent Failure α} (h : StoreOnly Unsaving p) :
    Within ProgramAccess p := by
  apply h.within
  intro s events t hst hevents
  refine ⟨Peer.session_storeStep hst ▸ .refl s.session, fun revision hmem => ?_,
    fun e hmem => ?_⟩
  · obtain ⟨event, hevent, hunsaving⟩ := hevents _ hmem
    cases hevent
    exact hunsaving revision rfl
  · obtain ⟨event, rfl, -⟩ := hevents _ hmem
    rintro ⟨⟩

/-- What a program says of itself concerns no transfer. -/
theorem within_note {f : Session → Session}
    (h : ∀ s, (f s).assemblers = s.assemblers ∧ (f s).orphanFrames = s.orphanFrames ∧
      (f s).inboundWork = s.inboundWork ∧ (f s).remoteDeviceId = s.remoteDeviceId ∧
      (f s).received = s.received ∧ (f s).outcome = s.outcome ∧ (f s).queued = s.queued ∧
      (f s).waiting = s.waiting) :
    Within ProgramAccess (update 0 f : Async Peer PeerEvent Failure Unit) :=
  within_update fun s => .same (h s)

theorem within_takeOutcome :
    Within ProgramAccess (takeOutcome 0 : Async Peer PeerEvent Failure Message) := by
  refine (within_readSession _).bind fun waiting => ?_
  refine (within_update Session.programStep_idle).bind fun _ => ?_
  split
  · exact Within.ofExcept _
  · trivial

theorem within_expect (type : MessageType) :
    Within ProgramAccess (expect 0 type : Async Peer PeerEvent Failure Message) :=
  (within_update (Session.programStep_expect type)).bind fun _ => within_takeOutcome

theorem within_fromBase64 (text reason : String) :
    Within ProgramAccess (fromBase64 text reason : Async Peer PeerEvent Failure Bytes) := by
  unfold fromBase64
  split
  · trivial
  · trivial

theorem within_exchangeVaultSummary (deps : SessionDeps) :
    Within ProgramAccess (exchangeVaultSummary 0 deps (fun _ => return ()) :
      Async Peer PeerEvent Failure (VaultId × Option RevisionId)) := by
  refine (within_storeOnly (storeOnly_localVault _)).bind fun vault => ?_
  dsimp only
  split
  · exact (within_send (by rintro ⟨⟩)).bind fun _ => trivial
  have hadvertise : Within ProgramAccess (advertise 0 vault : Async Peer PeerEvent Failure Unit) := by
    cases vault with
    | some vault =>
      exact (within_storeOnly (storeOnly_query _)).bind fun _ => within_send (by rintro ⟨⟩)
    | none => exact within_send (by rintro ⟨⟩)
  refine hadvertise.bind fun _ => (within_expect _).bind fun summary => ?_
  split
  · split
    · split
      · trivial
      · refine (within_storeOnly (storeOnly_adoptVault _ _ _ fun _ _ h => by cases h)).bind fun _ => ?_
        exact (within_emit (by rintro ⟨⟩)).bind fun _ => trivial
    · split
      · trivial
      · trivial
  · trivial

theorem within_exchangeHistory (vaultId : VaultId) :
    Within ProgramAccess (exchangeHistory 0 vaultId :
      Async Peer PeerEvent Failure (List HistorySummaryEntry)) := by
  refine (within_storeOnly (storeOnly_historySummary _)).bind fun summary => ?_
  refine (within_send (by rintro ⟨⟩)).bind fun _ => (within_expect _).bind fun answer => ?_
  split
  · trivial
  · trivial

end SyncSession

/-- An access of `run`, which learns once who the other side is. -/
inductive JudgingAccess (s : Peer) : List PeerEvent → Peer → Prop where
  | program {events : List PeerEvent} {t : Peer} (h : ProgramAccess s events t) :
    JudgingAccess s events t
  | proves (output : Output) : JudgingAccess s [.output output] s
  | authenticated (deviceId : DeviceId) :
    JudgingAccess s [] { s with session := { s.session with remoteDeviceId := some deviceId } }

namespace SyncSession

/-- The answer to a challenge, or the news of one. -/
theorem within_proof {output : Output} :
    Within JudgingAccess (onSession 0 fun s => (s, [output]) :
      Async Peer PeerEvent Failure Unit) :=
  fun _ => ⟨.proves output, trivial⟩

theorem within_handshake (auth : PeerAuthenticator) :
    Within JudgingAccess (handshake 0 auth : Async Peer PeerEvent Failure RemoteDevice) := by
  have hrun : ∀ {α : Type} {p : Async Peer PeerEvent Failure α}, Within ProgramAccess p →
      Within JudgingAccess p := fun hp => hp.mono fun _ _ _ => .program
  refine (hrun (within_send (by rintro ⟨⟩))).bind fun _ => ?_
  refine (hrun (within_expect _)).bind fun hello => ?_
  split
  · dsimp only
    split
    · exact (hrun (within_send (by rintro ⟨⟩))).bind fun _ => trivial
    refine (hrun (within_fromBase64 _ _)).bind fun key => ?_
    refine (hrun (within_fromBase64 _ _)).bind fun nonce => ?_
    apply Within.bind (p := send 0 _) within_proof
    intro _
    refine (hrun (within_expect _)).bind fun answer => ?_
    split
    · refine (hrun (within_fromBase64 _ _)).bind fun signature => ?_
      dsimp only [pause, await_bind, done_bind, Within]
      split
      · exact (hrun (within_send (by rintro ⟨⟩))).bind fun _ => trivial
      · refine Within.bind (p := update 0 _) (fun s => ⟨.authenticated _, trivial⟩) fun _ => ?_
        refine (hrun (within_emit (by rintro ⟨⟩))).bind fun _ => ?_
        exact Within.bind (p := emit 0 _) within_proof fun _ => trivial
    · trivial
  · trivial

theorem within_sendChunks (deps : SessionDeps) (transferSeq : Nat) (bytes : Bytes)
    (indices : List Nat) :
    Within ProgramAccess (sendChunks 0 deps transferSeq bytes indices :
      Async Peer PeerEvent Failure Unit) := by
  induction indices with
  | nil => trivial
  | cons chunkIndex rest ih =>
    have hpressure : Within ProgramAccess (backpressure 0 deps.highWaterBytes :
        Async Peer PeerEvent Failure Unit) := by
      refine (within_readSession _).bind fun buffered => ?_
      split
      · trivial
      · trivial
    refine hpressure.bind fun _ => (Within.ofExcept _).bind fun frame => ?_
    exact (within_output .refl (by rintro ⟨⟩)).bind fun _ => ih

theorem within_takeAck :
    Within ProgramAccess (takeAck 0 : Async Peer PeerEvent Failure (Bool × Option String)) := by
  refine (within_readSession _).bind fun ack => ?_
  refine Within.bind (p := update 0 _)
    (within_note fun _ => ⟨rfl, rfl, rfl, rfl, rfl, rfl, rfl, rfl⟩) fun _ => ?_
  split
  · trivial
  · trivial

theorem within_sendRevision (deps : SessionDeps) (transferSeq : Nat) (revision : Revision)
    (bytes : Bytes) (last : Bool) :
    Within ProgramAccess (sendRevision 0 deps transferSeq revision bytes last :
      Async Peer PeerEvent Failure Unit) := by
  refine (Within.ofExcept _).bind fun totalChunks => ?_
  refine (within_send (by rintro ⟨⟩)).bind fun _ => (within_emit (by rintro ⟨⟩)).bind fun _ => ?_
  refine Within.bind (p := update 0 _)
    (within_note fun _ => ⟨rfl, rfl, rfl, rfl, rfl, rfl, rfl, rfl⟩) fun _ => ?_
  refine (within_sendChunks deps transferSeq bytes _).bind fun _ => ?_
  refine Within.bind (p := update 0 _)
    (within_note fun _ => ⟨rfl, rfl, rfl, rfl, rfl, rfl, rfl, rfl⟩) fun _ => within_takeAck.bind ?_
  rintro ⟨accepted, reason⟩
  dsimp only
  split
  · exact within_output (fun s => .same ⟨rfl, rfl, rfl, rfl, rfl, rfl, rfl, rfl⟩) (by rintro ⟨⟩)
  · exact within_emit (by rintro ⟨⟩)

theorem within_serve (deps : SessionDeps) (ids : List RevisionId) (transferSeq : Nat) :
    Within ProgramAccess (serve 0 deps ids transferSeq : Async Peer PeerEvent Failure Unit) := by
  induction ids generalizing transferSeq with
  | nil => exact within_note fun _ => ⟨rfl, rfl, rfl, rfl, rfl, rfl, rfl, rfl⟩
  | cons id rest ih =>
    refine (within_storeOnly (storeOnly_query _)).bind fun found => ?_
    split
    · exact ih transferSeq
    · refine (within_storeOnly (storeOnly_bytesOf id)).bind fun bytes => ?_
      exact (within_sendRevision _ _ _ _ _).bind fun _ => ih _

theorem within_exchangeRevisions (deps : SessionDeps) (theirWants : List RevisionId) :
    Within ProgramAccess (exchangeRevisions 0 deps theirWants :
      Async Peer PeerEvent Failure Unit) := by
  apply Within.bind (p := startDrain 0 theirWants)
    (within_note fun _ => ⟨rfl, rfl, rfl, rfl, rfl, rfl, rfl, rfl⟩)
  intro _
  exact (within_serve deps theirWants 0).bind fun _ => trivial

theorem within_awaitCompletion :
    Within ProgramAccess (awaitCompletion 0 : Async Peer PeerEvent Failure Unit) := by
  refine Within.bind (p := update 0 _) (within_update fun s =>
    .note ⟨rfl, rfl, rfl, rfl, rfl, rfl, rfl⟩ (.inr fun message h => ?_)) fun _ => ?_
  · dsimp only at h
    split at h
    · cases h
      rfl
    · cases h
  exact Within.bind (p := .await _ _) within_takeOutcome fun _ => trivial

theorem within_awaitInbound :
    Within ProgramAccess (awaitInbound 0 : Async Peer PeerEvent Failure Unit) :=
  (within_readSession _).bind fun _ => trivial

/-- The result of a session. -/
def conclude (remote : RemoteDevice) (vaultId : VaultId) (remoteGraph : RevisionGraph)
    (remoteHead : Option RevisionId) : Async Peer PeerEvent Failure SessionResult := do
  let (received, sent, missing) ← readSession 0 fun s => (s.received, s.sent, s.expected)
  let divergence ← classify vaultId remoteGraph remoteHead
  return ⟨vaultId, remote, received, sent, missing, divergence, remoteHead⟩

/-- What `run` does once the peer is accepted. -/
def exchange (deps : SessionDeps) (remote : RemoteDevice) :
    Async Peer PeerEvent Failure SessionResult := do
  let (vaultId, remoteHead) ← exchangeVaultSummary 0 deps fun _ => return ()
  let remoteNodes := summaryNodes (← exchangeHistory 0 vaultId)
  Async.ofExcept (validateRemoteGraph remoteNodes)
  let remoteGraph := buildGraph remoteNodes
  let wanted ← computeWants vaultId remoteGraph remoteHead
  onSession 0 fun s => ({ s with expected := wanted }, [.event (.requested wanted)])
  send 0 (.wantRevisions vaultId wanted)
  match ← expect 0 .wantRevisions with
  | .wantRevisions _ theirWants =>
    exchangeRevisions 0 deps theirWants
    send 0 (.syncComplete vaultId)
    awaitCompletion 0
    awaitInbound 0
    match remoteHead with
    | some head => SyncEngine.recordPeerHead deps.now remote.id vaultId head
    | none => pure ()
    conclude remote vaultId remoteGraph remoteHead
  | _ => unexpected

theorem run_eq (deps : SessionDeps) :
    run 0 deps (fun _ => return ()) = handshake 0 deps.auth >>= exchange deps := rfl

theorem within_conclude (remote : RemoteDevice) (vaultId : VaultId) (remoteGraph : RevisionGraph)
    (remoteHead : Option RevisionId) :
    Within ProgramAccess (conclude remote vaultId remoteGraph remoteHead) := by
  refine (within_readSession _).bind ?_
  rintro ⟨received, sent, missing⟩
  exact (within_storeOnly (storeOnly_classify _ _ _)).bind fun _ => trivial

theorem within_exchange (deps : SessionDeps) (remote : RemoteDevice) :
    Within ProgramAccess (exchange deps remote) := by
  refine (within_exchangeVaultSummary deps).bind ?_
  rintro ⟨vaultId, remoteHead⟩
  refine (within_exchangeHistory vaultId).bind fun summary => ?_
  refine (Within.ofExcept _).bind fun _ => ?_
  refine (within_storeOnly (storeOnly_computeWants _ _ _)).bind fun wanted => ?_
  refine Within.bind (p := onSession 0 _) (within_output (fun s => ?_) (by rintro ⟨⟩)) fun _ => ?_
  · exact .same ⟨rfl, rfl, rfl, rfl, rfl, rfl, rfl, rfl⟩
  refine Within.bind (p := send 0 _) (within_send (by rintro ⟨⟩)) fun _ => ?_
  refine (within_expect _).bind fun answer => ?_
  split
  · rename_i theirWants
    refine (within_exchangeRevisions deps theirWants).bind fun _ => ?_
    refine Within.bind (p := send 0 _) (within_send (by rintro ⟨⟩)) fun _ => ?_
    refine within_awaitCompletion.bind fun _ => within_awaitInbound.bind fun _ => ?_
    have hend := within_conclude remote vaultId (buildGraph (summaryNodes summary)) remoteHead
    dsimp only
    cases remoteHead with
    | some head => exact (within_storeOnly (storeOnly_recordPeerHead _ _ _ _)).bind fun _ => hend
    | none => exact hend
  · trivial

theorem within_run (deps : SessionDeps) :
    Within JudgingAccess (run 0 deps (fun _ => return ()) :
      Async Peer PeerEvent Failure SessionResult) :=
  (within_handshake deps.auth).bind fun remote => (within_exchange deps remote).mono fun _ _ _ =>
    .program

end SyncSession

/-- An access of a link of the `inboundWork` chain. -/
inductive IngestAccess (s : Peer) : List PeerEvent → Peer → Prop where
  | program {events : List PeerEvent} {t : Peer} (h : s.session.ProgramStep t.session)
      (hquiet : ∀ e ∈ events, ¬ Proves e) : IngestAccess s events t
  | take : IngestAccess s [] { s with
      session := { s.session with inboundWork := s.session.inboundWork.tail, ingesting := true } }
  | accepted (revisionId : RevisionId) :
    IngestAccess s ((s.session.accepted revisionId).2.map .output)
      { s with session := (s.session.accepted revisionId).1 }

namespace SyncSession

/-- A link of the chain takes its transfer off, and may receive its revision. -/
theorem within_ingestNext (deps : EngineDeps) (now : Nat) (inbound : InboundHeader)
    (bytes : Bytes) :
    Within IngestAccess (ingestNext 0 deps now inbound bytes :
      Async Peer PeerEvent Failure Unit) := by
  have hprogram : ∀ {p : Async Peer PeerEvent Failure Unit}, Within ProgramAccess p →
      Within IngestAccess p := fun hp => hp.mono fun _ _ _ h => .program h.step h.quiet
  have hreject : ∀ reason, Within ProgramAccess (onSession 0 (·.reject inbound.header.revisionId
      reason) : Async Peer PeerEvent Failure Unit) :=
    fun reason => within_onSession (Session.programStep_reject _ reason) fun s output hmem =>
      (Session.answer_reject _ _ s output hmem).not_proves
  have hingest : ∀ input, Within IngestAccess (SyncEngine.ingestReceivedRevision deps now input :
      Async Peer PeerEvent Failure IngestResult) := by
    intro input
    have hstore : StoreOnly (fun _ => True) (SyncEngine.ingestReceivedRevision deps now input :
        Async Peer PeerEvent Failure IngestResult) := storeOnly_ingest deps now fun _ _ => trivial
    refine hstore.within fun s _ _ hst hevents =>
      .program (Peer.session_storeStep hst ▸ .refl s.session) fun e hmem => ?_
    obtain ⟨event, rfl, -⟩ := hevents e hmem
    rintro ⟨⟩
  refine Within.bind (p := update 0 _) (fun s => ⟨.take, trivial⟩) fun _ => ?_
  refine Within.bind (Within.attempt ?_) fun _ =>
    hprogram (within_note fun _ => ⟨rfl, rfl, rfl, rfl, rfl, rfl, rfl, rfl⟩)
  refine Within.bind (Within.attempt ((hingest _).bind fun result => ?_)) fun outcome => ?_
  · split
    · exact hprogram (hreject _)
    · exact fun s => ⟨.accepted _, trivial⟩
  · split
    · trivial
    · exact hprogram (hreject _)

end SyncSession

/-- An access of `run`, or of what keeps its outcome. -/
inductive RunAccess (s : Peer) : List PeerEvent → Peer → Prop where
  | judging {events : List PeerEvent} {t : Peer} (h : JudgingAccess s events t) :
    RunAccess s events t
  | ended (result : Except Failure SessionResult) :
    RunAccess s [] { s with session := { s.session with outcome := some result } }

theorem within_runToEnd (config : SessionDeps) : Within RunAccess (runToEnd config) :=
  ((SyncSession.within_run config).mono fun _ _ _ => .judging).attempt.bind fun result _ =>
    ⟨.ended result, trivial⟩

/-- No transfer goes on, and nothing is queued. -/
structure Session.Untouched (s t : Session) : Prop where
  assemblers : t.assemblers = s.assemblers
  orphanFrames : t.orphanFrames = s.orphanFrames
  queued : t.queued.Sublist s.queued

theorem Session.ProgramStep.untouched {s t : Session} (h : s.ProgramStep t) : s.Untouched t :=
  ⟨h.assemblers, h.orphanFrames, h.queued⟩

theorem RunAccess.untouched {s t : Peer} {events : List PeerEvent} (h : RunAccess s events t) :
    s.session.Untouched t.session := by
  cases h with
  | judging h =>
    cases h with
    | program h => exact h.step.untouched
    | proves | authenticated => exact ⟨rfl, rfl, List.Sublist.refl _⟩
  | ended => exact ⟨rfl, rfl, List.Sublist.refl _⟩

theorem IngestAccess.untouched {s t : Peer} {events : List PeerEvent}
    (h : IngestAccess s events t) : s.session.Untouched t.session := by
  cases h with
  | program h _ => exact h.untouched
  | take => exact ⟨rfl, rfl, List.Sublist.refl _⟩
  | accepted revisionId =>
    have h := Session.programStep_accepted revisionId s.session
    exact ⟨h.assemblers, h.orphanFrames, h.queued⟩

/-- What an access of a device can do to its session. -/
inductive SessionAccess (s : Peer) : List PeerEvent → Peer → Prop where
  | run {events : List PeerEvent} {t : Peer} (h : RunAccess s events t) : SessionAccess s events t
  | ingest {events : List PeerEvent} {t : Peer} (h : IngestAccess s events t) :
    SessionAccess s events t
  | control (payload : Except Failure Message) :
    SessionAccess s (.delivered payload :: (s.session.accept payload).2.map .output)
      { s with session := (s.session.accept payload).1 }
  | bulk (frame : Bytes) :
    SessionAccess s (.arrived frame :: (s.session.acceptBulk frame).2.map .output)
      { s with session := (s.session.acceptBulk frame).1 }

theorem within_peerSystem {deps : EngineDeps} {command : PeerCommand} {s : Peer}
    {p : Async Peer PeerEvent Failure Unit} (h : peerSystem deps command s = some p) :
    Within SessionAccess p := by
  cases command with
  | control payload =>
    cases h
    exact fun s => ⟨.control payload, trivial⟩
  | bulk frame =>
    cases h
    exact fun s => ⟨.bulk frame, trivial⟩
  | close =>
    cases h
    refine fun s => ⟨.run (.judging (.program ⟨Session.programStep_onClose _, ?_, ?_⟩)), trivial⟩
    · simp
    · rintro e hmem ⟨⟩ <;> simp at hmem
  | timeout =>
    rw [peerSystem] at h
    split at h
    · cases h
      exact (SyncSession.within_update Session.programStep_timeout).mono fun _ _ _ h => .run (.judging (.program h))
    · cases h
  | buffered | closeBulk =>
    cases h
    exact Within.mono (fun _ _ _ h => .run (.judging (.program h)))
      (SyncSession.within_note fun _ => ⟨rfl, rfl, rfl, rfl, rfl, rfl, rfl, rfl⟩)
  | ingestNext now =>
    rw [peerSystem] at h
    split at h
    · cases h
    · obtain ⟨⟨inbound, bytes⟩, -, rfl⟩ := Option.map_eq_some_iff.mp h
      exact (SyncSession.within_ingestNext deps now inbound bytes).mono fun _ _ _ => .ingest

/-- What the callbacks and the programs of a session preserve holds in every state of a run. -/
theorem reach_session {deps : EngineDeps} {config : SessionDeps}
    {cond : Peer → PeerEvent → Prop} {P : Session → Prop} (hnew : P .new)
    (hP : ∀ s events t, SessionAccess s events t → (∀ e ∈ events, cond s e) → P s.session →
      P t.session)
    {w : Pool Peer PeerEvent Failure}
    (h : Reach (peerSystem deps) (Starting config) cond w) : P w.state.session := by
  have hinit : ∀ w : Pool Peer PeerEvent Failure, Starting config w →
      w.Within SessionAccess fun s => P s.session := by
    rintro w ⟨hsession, htasks⟩
    refine ⟨hsession ▸ hnew, fun p hp => ?_⟩
    rw [htasks, List.mem_singleton] at hp
    rw [hp]
    exact (within_runToEnd config).mono fun _ _ _ => .run
  exact (h.within (fun _ _ _ _ hp => within_peerSystem hp) hP hinit).state

end PassVault
