import PassVault.Sync.CallbackErrors
import PassVault.Transport.PeerLinkHub

/-!
# What a peer can make a session hold

Messages that nobody asked for, transfers under way and frames without a header pile up in a
session, and the first frames of a peer in the hub. `size` is what a message takes in memory.
-/

namespace PassVault

namespace Session

/-- The bytes a session holds for its peer. -/
def heldBytes (size : Message → Nat) (s : Session) : Nat :=
  (s.queued.map size).sum +
    (s.assemblers.map fun (_, inbound, assembler) =>
      size (.revisionHeader inbound.header) + (assembler.chunks.map (·.2.length)).sum).sum +
    (s.orphanFrames.map (·.payload.length)).sum

/-- A control payload piles up no further: a message to be queued finds fewer than `room` queued,
and a header that begins a transfer fewer than `room` under way. -/
def Fits (room : Nat) : Except Failure Message → Session → Prop
  | .ok (.revisionHeader header), s =>
    s.remoteDeviceId = none ∨ header.totalChunks = 0 ∨
      header.transferSeq ∈ s.assemblers.map (·.1) ∨ s.assemblers.length < room
  | .ok message, s =>
    handled message.type = true ∨ message.type = .error ∨
      (∃ type, s.waiting = .expecting type ∧ type = message.type) ∨ s.queued.length < room
  | .error _, _ => True

variable {size : Message → Nat} {maxMessage room : Nat} {s t : Session}

theorem length_dropAssembler (transferSeq : Nat) (s : Session) :
    (s.dropAssembler transferSeq).assemblers.length ≤ s.assemblers.length :=
  List.length_filter_le _ _

/-- To go on with a transfer is not to begin one. -/
theorem length_setAssembler {transferSeq : Nat} (h : transferSeq ∈ s.assemblers.map (·.1))
    (header : InboundHeader) (assembler : ChunkAssembler) :
    (s.setAssembler transferSeq header assembler).assemblers.length ≤ s.assemblers.length := by
  obtain ⟨entry, hentry, hkey⟩ := List.mem_map.mp h
  have hlt : (s.assemblers.filter (·.1 ≠ transferSeq)).length < s.assemblers.length :=
    List.length_filter_lt_length_iff_exists.mpr ⟨entry, hentry, by simp [hkey]⟩
  simp only [setAssembler, List.length_append, List.length_singleton]
  omega

/-! ## Frames put aside -/

theorem orphanFrames_notifyProgress (s : Session) :
    s.notifyProgress.orphanFrames = s.orphanFrames :=
  (sameInbound_notifyProgress s).2.1

theorem orphanFrames_onFrame (frame : ChunkFrame) (s : Session) :
    ∀ other ∈ (s.onFrame frame).1.orphanFrames, other = frame ∨ other ∈ s.orphanFrames := by
  intro other hother
  unfold onFrame at hother
  split at hother
  · split at hother
    · rcases List.mem_append.mp hother with hother | hother
      · exact .inr hother
      · exact .inl (List.mem_singleton.mp hother)
    · exact .inr hother
  · rename_i header _ _
    split at hother
    · have hsame := sameInbound_reject header.header.revisionId
        "chunk exceeded the declared size" (s.dropAssembler frame.transferSeq)
      exact .inr (hsame.2.1 ▸ hother)
    · split at hother
      · exact .inr hother
      · exact .inr hother

theorem orphanFrames_releaseOrphans (transferSeq count : Nat) (s : Session) :
    ∀ other ∈ (releaseOrphans transferSeq count s).1.orphanFrames, other ∈ s.orphanFrames := by
  induction count generalizing s with
  | zero => exact fun _ hother => hother
  | succ index ih =>
    intro other hother
    unfold releaseOrphans at hother
    split at hother
    · rename_i frame hget
      split at hother
      · rcases orphanFrames_onFrame _ _ other (ih _ other hother) with rfl | hother
        · exact List.mem_of_getElem? hget
        · exact List.mem_of_mem_eraseIdx hother
      · exact ih s other hother
    · exact ih s other hother

theorem orphanFrames_accept (payload : Except Failure Message) (s : Session) :
    ∀ other ∈ (s.accept payload).1.orphanFrames, other ∈ s.orphanFrames := by
  intro other hother
  unfold accept at hother
  split at hother
  · exact hother
  · exact hother
  · split at hother
    · exact hother
    · unfold onHeader at hother
      split at hother
      · exact hother
      · exact orphanFrames_releaseOrphans _ _ (s.setAssembler _ _ _) other hother
  · unfold onAck at hother
    split at hother
    · exact hother
    · exact hother
  · rw [onComplete, orphanFrames_notifyProgress] at hother
    exact hother
  · unfold onCancel at hother
    split at hother
    · exact hother
    · rw [orphanFrames_notifyProgress] at hother
      exact hother
  · exact (sameInbound_enqueue _ s).2.1 ▸ hother

/-! ## The bound -/

theorem queued_frameStep (hstep : FrameStep s t) : t.queued = s.queued := by
  cases hstep with
  | same _ hqueued => exact hqueued
  | orphan | release | chunk | complete | drop => rfl

theorem queued_frameSteps (h : FrameSteps s t) : t.queued = s.queued :=
  keeps_steps (P := fun t => t.queued = s.queued)
    (fun _ _ hstep hs => (queued_frameStep hstep).trans hs) h rfl

theorem expectedSizeBytes_accept {assembler after : ChunkAssembler} {frame : ChunkFrame}
    {accepted : Bool} (h : assembler.accept frame = (after, accepted)) :
    after.expectedSizeBytes = assembler.expectedSizeBytes := by
  unfold ChunkAssembler.accept at h
  split at h
  · cases h
    rfl
  split at h
  · cases h
    rfl
  split at h
  · cases h
    rfl
  · cases h
    rfl

/-- The transfers under way are few, and each within the limits of its header. -/
structure Transferring (size : Message → Nat) (maxMessage room : Nat) (s : Session) : Prop where
  count : s.assemblers.length ≤ room
  each : ∀ entry ∈ s.assemblers, size (.revisionHeader entry.2.1.header) ≤ maxMessage ∧
    entry.2.2.WellFormed ∧ entry.2.2.expectedSizeBytes ≤ Limits.maxRevisionBytes

theorem Transferring.setAssembler (h : s.Transferring size maxMessage room)
    {transferSeq : Nat} {header : InboundHeader} {assembler : ChunkAssembler}
    (hcount : (s.setAssembler transferSeq header assembler).assemblers.length ≤ room)
    (hentry : size (.revisionHeader header.header) ≤ maxMessage ∧ assembler.WellFormed ∧
      assembler.expectedSizeBytes ≤ Limits.maxRevisionBytes) :
    (s.setAssembler transferSeq header assembler).Transferring size maxMessage room := by
  refine ⟨hcount, fun entry hmem => ?_⟩
  rcases List.mem_append.mp hmem with hmem | hmem
  · exact h.each entry (List.mem_filter.mp hmem).1
  · rw [List.mem_singleton.mp hmem]
    exact hentry

theorem Transferring.frameStep (h : s.Transferring size maxMessage room) (hstep : FrameStep s t) :
    t.Transferring size maxMessage room := by
  have hdrop : ∀ transferSeq, (s.dropAssembler transferSeq).Transferring size maxMessage room :=
    fun transferSeq => ⟨(length_dropAssembler transferSeq s).trans h.count,
      fun entry hmem => h.each entry (List.mem_filter.mp hmem).1⟩
  cases hstep with
  | same hsame => exact ⟨hsame.1 ▸ h.count, hsame.1 ▸ h.each⟩
  | orphan => exact ⟨h.count, h.each⟩
  | release => exact ⟨h.count, h.each⟩
  | chunk transferSeq frame header assembler after hmem haccept =>
    obtain ⟨hsize, hwell, hexpected⟩ := h.each _ hmem
    refine h.setAssembler
      ((length_setAssembler (List.mem_map_of_mem hmem) header after).trans h.count)
      ⟨hsize, hwell.accept haccept, ?_⟩
    rw [expectedSizeBytes_accept haccept]
    exact hexpected
  | complete transferSeq => exact ⟨(hdrop transferSeq).count, (hdrop transferSeq).each⟩
  | drop transferSeq => exact hdrop transferSeq

theorem orphanFrames_frameStep (hstep : FrameStep s t)
    (h : s.orphanFrames.length ≤ maxOrphanFrames) : t.orphanFrames.length ≤ maxOrphanFrames := by
  cases hstep with
  | same hsame => exact hsame.2.1 ▸ h
  | orphan frame hroom => simpa using Nat.succ_le_of_lt hroom
  | release index => exact (List.eraseIdx_sublist _ _).length_le.trans h
  | chunk | complete | drop => exact h

/-- What a session holds for its peer is bounded. -/
structure Holds (size : Message → Nat) (maxMessage room : Nat) (s : Session) : Prop where
  queued : s.queued.length ≤ room
  queuedSize : ∀ message ∈ s.queued, size message ≤ maxMessage
  transfers : s.Transferring size maxMessage room
  orphans : s.orphanFrames.length ≤ maxOrphanFrames
  orphanSize : ∀ frame ∈ s.orphanFrames, frame.payload.length ≤ maxMessage

theorem holds_new : Session.new.Holds size maxMessage room :=
  ⟨Nat.zero_le _, by simp [new], ⟨Nat.zero_le _, by simp [new]⟩, Nat.zero_le _, by simp [new]⟩

/-- What the elementary steps of a callback do not show of what is held: where the frames put aside
come from. -/
theorem Holds.frameSteps (h : s.Holds size maxMessage room) (hsteps : FrameSteps s t)
    (horphan : ∀ frame ∈ t.orphanFrames, frame.payload.length ≤ maxMessage) :
    t.Holds size maxMessage room where
  queued := queued_frameSteps hsteps ▸ h.queued
  queuedSize := queued_frameSteps hsteps ▸ h.queuedSize
  transfers := keeps_steps (P := fun t => t.Transferring size maxMessage room)
    (fun _ _ hstep hs => hs.frameStep hstep) hsteps h.transfers
  orphans := keeps_steps (P := fun t => t.orphanFrames.length ≤ maxOrphanFrames)
    (fun _ _ hstep hs => orphanFrames_frameStep hstep hs) hsteps h.orphans
  orphanSize := horphan

theorem Holds.untouched (h : s.Holds size maxMessage room) (hstep : s.Untouched t) :
    t.Holds size maxMessage room where
  queued := hstep.queued.length_le.trans h.queued
  queuedSize := fun message hmem => h.queuedSize message (hstep.queued.subset hmem)
  transfers := ⟨hstep.assemblers ▸ h.transfers.count, hstep.assemblers ▸ h.transfers.each⟩
  orphans := hstep.orphanFrames ▸ h.orphans
  orphanSize := hstep.orphanFrames ▸ h.orphanSize

theorem queued_enqueue (message : Message) (s : Session) :
    (s.enqueue message).queued = s.queued ++ [message] ∨
      (s.enqueue message).queued = s.queued := by
  unfold enqueue
  split
  · split
    · exact .inr rfl
    · exact .inl rfl
  · exact .inl rfl

theorem Holds.enqueue (h : s.Holds size maxMessage room) {message : Message}
    (hsize : size message ≤ maxMessage)
    (hroom : (∃ type, s.waiting = .expecting type ∧ type = message.type) ∨
      s.queued.length < room) :
    (s.enqueue message).Holds size maxMessage room := by
  have hsame := sameInbound_enqueue message s
  refine ⟨?_, ?_, ⟨hsame.1 ▸ h.transfers.count, hsame.1 ▸ h.transfers.each⟩, hsame.2.1 ▸ h.orphans,
    hsame.2.1 ▸ h.orphanSize⟩
  · rcases hroom with ⟨type, hwaiting, htype⟩ | hroom
    · simp only [Session.enqueue, hwaiting, if_pos htype]
      exact h.queued
    · rcases queued_enqueue message s with hqueued | hqueued
      · rw [hqueued, List.length_append]
        exact hroom
      · exact hqueued ▸ h.queued
  · intro other hother
    rcases queued_enqueue message s with hqueued | hqueued
    · rw [hqueued] at hother
      rcases List.mem_append.mp hother with hother | hother
      · exact h.queuedSize other hother
      · exact List.mem_singleton.mp hother ▸ hsize
    · exact h.queuedSize other (hqueued ▸ hother)

/-- A control payload of bounded size that piles up no further. -/
theorem Holds.accept (h : s.Holds size maxMessage room) {payload : Except Failure Message}
    (hsize : ∀ message, payload = .ok message → size message ≤ maxMessage)
    (hheader : ∀ header, payload = .ok (.revisionHeader header) →
      header.sizeBytes ≤ Limits.maxRevisionBytes)
    (hfits : s.Fits room payload) : (s.accept payload).1.Holds size maxMessage room := by
  have horphan : ∀ frame ∈ (s.accept payload).1.orphanFrames, frame.payload.length ≤ maxMessage :=
    fun frame hframe => h.orphanSize frame (orphanFrames_accept payload s frame hframe)
  rcases accept_cases payload s with ⟨message, rfl, hhandled, herror, haccept⟩ |
    ⟨header, fromDeviceId, assembler, rfl, hremote, hcreate, hsteps⟩ | hsteps
  · rw [haccept]
    refine h.enqueue (hsize message rfl) ?_
    have hnot : ∀ header, message ≠ .revisionHeader header := by
      rintro header rfl
      cases hhandled
    rw [Fits.eq_def] at hfits
    split at hfits
    · rename_i hmessage
      cases hmessage
      exact (hnot _ rfl).elim
    · rename_i hmessage
      cases hmessage
      simpa [hhandled, herror] using hfits
    · rename_i hmessage
      cases hmessage
  · obtain ⟨_, hpos, hnew⟩ := bind_eq_ok.mp hcreate
    cases hnew
    have hpos : header.totalChunks ≠ 0 := Nat.ne_of_gt (by simpa using assert_eq_ok.mp hpos)
    have hcount : (s.setAssembler header.transferSeq ⟨header, fromDeviceId⟩
        ⟨header.totalChunks, header.sizeBytes, [], 0⟩).assemblers.length ≤ room := by
      rcases hfits with hnone | hzero | hknown | hroom
      · rw [hremote] at hnone
        cases hnone
      · exact (hpos hzero).elim
      · exact (length_setAssembler hknown _ _).trans h.transfers.count
      · have hle := length_dropAssembler header.transferSeq s
        simp only [dropAssembler] at hle
        simp only [setAssembler, List.length_append, List.length_singleton]
        omega
    have hentry : size (.revisionHeader header) ≤ maxMessage := hsize _ rfl
    have htransfers := h.transfers.setAssembler hcount
      ⟨hentry, ChunkAssembler.wellFormed_create hcreate, hheader header rfl⟩
    have hset : Holds size maxMessage room (s.setAssembler header.transferSeq
        ⟨header, fromDeviceId⟩ ⟨header.totalChunks, header.sizeBytes, [], 0⟩) :=
      ⟨h.queued, h.queuedSize, htransfers, h.orphans, h.orphanSize⟩
    exact hset.frameSteps hsteps horphan
  · exact h.frameSteps hsteps horphan

theorem length_decodeChunkFrame {bytes : Bytes} {frame : ChunkFrame}
    (h : decodeChunkFrame bytes = some frame) : frame.payload.length ≤ bytes.length := by
  unfold decodeChunkFrame at h
  split at h
  · cases h
    simp only [List.length_cons]
    omega
  · cases h

/-- A bulk frame of bounded size. -/
theorem Holds.acceptBulk (h : s.Holds size maxMessage room) {frame : Bytes}
    (hsize : frame.length ≤ maxMessage) : (s.acceptBulk frame).1.Holds size maxMessage room := by
  apply h.frameSteps (steps_acceptBulk frame s)
  intro other hother
  unfold Session.acceptBulk at hother
  split at hother
  · rename_i decoded hdecoded
    rcases orphanFrames_onFrame decoded s other hother with rfl | hother
    · exact (length_decodeChunkFrame hdecoded).trans hsize
    · exact h.orphanSize other hother
  · exact h.orphanSize other hother

theorem sum_map_le {α : Type} {f : α → Nat} {items : List α} {count bound : Nat}
    (hcount : items.length ≤ count) (h : ∀ item ∈ items, f item ≤ bound) :
    (items.map f).sum ≤ count * bound := by
  have hsum := List.sum_le_card_nsmul (items.map f) bound (by simpa using h)
  rw [List.length_map, Nat.nsmul_eq_mul] at hsum
  exact hsum.trans (Nat.mul_le_mul_right bound hcount)

theorem Holds.heldBytes_le (h : s.Holds size maxMessage room) :
    s.heldBytes size ≤ room * maxMessage + room * (maxMessage + Limits.maxRevisionBytes) +
      maxOrphanFrames * maxMessage := by
  have hassemblers : (s.assemblers.map fun (_, inbound, assembler) =>
      size (.revisionHeader inbound.header) + (assembler.chunks.map (·.2.length)).sum).sum ≤
        room * (maxMessage + Limits.maxRevisionBytes) := by
    refine sum_map_le h.transfers.count ?_
    rintro ⟨transferSeq, inbound, assembler⟩ hentry
    obtain ⟨hsize, hwell, hexpected⟩ := h.transfers.each _ hentry
    have hreceived := hwell.received ▸ hwell.room
    dsimp only at hsize hexpected hreceived ⊢
    omega
  have hqueued := sum_map_le h.queued h.queuedSize
  have horphans := sum_map_le h.orphans h.orphanSize
  unfold heldBytes
  omega

end Session

open Async

/-- What the peer sends is no larger than a channel message, read by `parseMessage`, and piles up
no further than `room`. -/
def Spaced (size : Message → Nat) (maxMessage room : Nat) (s : Peer) : PeerEvent → Prop
  | .delivered payload =>
    (∀ message, payload = .ok message →
      size message ≤ maxMessage ∧ ∃ sent, parseMessage sent = .ok message) ∧
      s.session.Fits room payload
  | .arrived frame => frame.length ≤ maxMessage
  | _ => True

/-- A header that was parsed is within the limits. -/
theorem parseMessage_sizeBytes {sent : Message} {header : RevisionHeader}
    (h : parseMessage sent = .ok (.revisionHeader header)) :
    header.sizeBytes ≤ Limits.maxRevisionBytes := by
  have htype := type_parseMessage h
  cases sent with
  | revisionHeader sent =>
    obtain ⟨_, hparse, h⟩ := bind_eq_ok.mp h
    cases h
    obtain ⟨_, -, hparse⟩ := bind_eq_ok.mp hparse
    obtain ⟨_, hsize, -⟩ := bind_eq_ok.mp hparse
    simpa using require_eq_ok.mp hsize
  | hello | auth | vaultSummary | historySummary | wantRevisions | revisionAck | transferCancel
    | syncComplete | bye | error => cases htype

theorem reach_holds {deps : EngineDeps} {config : SessionDeps} {size : Message → Nat}
    {maxMessage room : Nat} {w : Pool Peer PeerEvent Failure}
    (h : Reach (peerSystem deps) (Starting config) (Spaced size maxMessage room) w) :
    w.state.session.Holds size maxMessage room := by
  refine reach_session (P := Session.Holds size maxMessage room) Session.holds_new
    (fun s events t haccess hcond hs => ?_) h
  cases haccess with
  | run hrun => exact hs.untouched hrun.untouched
  | ingest hingest => exact hs.untouched hingest.untouched
  | control payload =>
    obtain ⟨hmessage, hfits⟩ := hcond _ List.mem_cons_self
    refine hs.accept (fun message hpayload => (hmessage message hpayload).1)
      (fun header hpayload => ?_) hfits
    obtain ⟨-, sent, hsent⟩ := hmessage _ hpayload
    exact parseMessage_sizeBytes hsent
  | bulk frame => exact hs.acceptBulk (hcond _ List.mem_cons_self)

/-- Before it has said who it is, a peer says `bye` over and over. -/
theorem reach_byes (deps : EngineDeps) (config : SessionDeps) {start : Pool Peer PeerEvent Failure}
    (hstart : Starting config start) (count : Nat) :
    ∃ w, Reach (peerSystem deps) (Starting config)
        (fun _ e => ∀ payload, e = .delivered payload → payload = parseMessage .bye) w ∧
      w.state.session.waiting = .idle ∧ w.state.session.queued.length = count := by
  induction count with
  | zero =>
    refine ⟨start, .init start hstart, ?_, ?_⟩
    · rw [hstart.1]
      rfl
    · rw [hstart.1]
      rfl
  | succ count ih =>
    obtain ⟨w, hreach, hidle, hqueued⟩ := ih
    have hstep : w.step (peerSystem deps) (.start (.control (.ok .bye))) =
        some (⟨{ w.state with session := (w.state.session.accept (.ok .bye)).1 },
          w.tasks ++ [.done ()]⟩, [(w.state, .delivered (.ok .bye))]) := by
      have houtputs : (w.state.session.accept (.ok .bye)).2 = [] := rfl
      rw [Pool.step, peerSystem]
      simp only [callback, advance, houtputs, List.map_nil, List.map_cons, List.append_nil]
    refine ⟨_, .step hreach hstep ?_, ?_⟩
    · intro x hx payload hpayload
      cases List.mem_singleton.mp hx
      cases hpayload
      rfl
    · have haccept : (w.state.session.accept (.ok .bye)).1 =
          { w.state.session with queued := w.state.session.queued ++ [.bye] } := by
        simp only [Session.accept, Session.enqueue, hidle]
      show (w.state.session.accept (.ok .bye)).1.waiting = .idle ∧
        (w.state.session.accept (.ok .bye)).1.queued.length = count + 1
      rw [haccept, List.length_append, hqueued]
      exact ⟨hidle, rfl⟩

end PassVault
