import PassVault.Core.Assembler
import PassVault.Sync.Callbacks
import PassVault.Sync.SessionEnd

/-!
# What the callbacks of a session throw

The callbacks once more, with the assertions of `ChunkAssembler` where the source makes them. What
is thrown there ends the callback and leaves the session as it is by then.
-/

namespace PassVault

/-! ## The callbacks -/

/-- The session a callback leaves, what it has sent by then, and what it throws. -/
abbrev Thrown := (Session × List Output) × Option Failure

namespace Session

def onFrameOrThrow (frame : ChunkFrame) (s : Session) : Thrown :=
  match s.assemblers.find? (·.1 = frame.transferSeq) with
  | none =>
    if s.orphanFrames.length < maxOrphanFrames then
      (({ s with orphanFrames := s.orphanFrames ++ [frame] }, []), none)
    else ((s, []), none)
  | some (_, header, assembler) =>
    match assembler.accept frame with
    | (_, false) =>
      ((s.dropAssembler frame.transferSeq).reject header.header.revisionId
        "chunk exceeded the declared size", none)
    | (assembler, true) =>
      if assembler.isComplete then
        match assembler.assembleOrThrow with
        | .ok bytes => (((s.dropAssembler frame.transferSeq).queueIngest header bytes, []), none)
        | .error error => ((s.dropAssembler frame.transferSeq, []), some error)
      else ((s.setAssembler frame.transferSeq header assembler, []), none)

def releaseOrphansOrThrow (transferSeq : Nat) : Nat → Session → Thrown
  | 0, s => ((s, []), none)
  | index + 1, s =>
    match s.orphanFrames[index]? with
    | some frame =>
      if frame.transferSeq = transferSeq then
        match { s with orphanFrames := s.orphanFrames.eraseIdx index }.onFrameOrThrow frame with
        | (left, some error) => (left, some error)
        | ((s, outputs), none) =>
          let ((s, outputs'), thrown) := releaseOrphansOrThrow transferSeq index s
          ((s, outputs ++ outputs'), thrown)
      else releaseOrphansOrThrow transferSeq index s
    | none => releaseOrphansOrThrow transferSeq index s

def onHeaderOrThrow (header : InboundHeader) (s : Session) : Thrown :=
  match ChunkAssembler.create header.header.totalChunks header.header.sizeBytes with
  | .error error => ((s, []), some error)
  | .ok assembler =>
    let s := s.setAssembler header.header.transferSeq header assembler
    releaseOrphansOrThrow header.header.transferSeq s.orphanFrames.length s

/-- `inbox.accept`. The handlers of the other messages assert nothing. -/
def acceptOrThrow : Except Failure Message → Session → Thrown
  | .ok (.revisionHeader header), s =>
    match s.remoteDeviceId with
    | none => ((s.fail (malformed "revision-header arrived before hello"), []), none)
    | some fromDeviceId => s.onHeaderOrThrow ⟨header, fromDeviceId⟩
  | payload, s => (s.accept payload, none)

def acceptBulkOrThrow (frame : Bytes) (s : Session) : Thrown :=
  match decodeChunkFrame frame with
  | some frame => s.onFrameOrThrow frame
  | none => ((s, []), none)

/-- Every transfer under way has an assembler that was built and fed as it should be. -/
def Assembling (s : Session) : Prop := ∀ entry ∈ s.assemblers, entry.2.2.WellFormed

theorem assembling_step {s t : Session} (hstep : InboundStep s t) (h : s.Assembling) :
    t.Assembling := by
  have hdrop : ∀ transferSeq, (s.dropAssembler transferSeq).Assembling :=
    fun _ entry hentry => h entry (List.mem_filter.mp hentry).1
  have hset : ∀ transferSeq header assembler, assembler.WellFormed →
      (s.setAssembler transferSeq header assembler).Assembling := by
    intro transferSeq header assembler hwell entry hentry
    rcases List.mem_append.mp hentry with hentry | hentry
    · exact h entry (List.mem_filter.mp hentry).1
    · rw [List.mem_singleton.mp hentry]
      exact hwell
  cases hstep with
  | frame hframe =>
    cases hframe with
    | same hsame => exact fun entry hentry => h entry (hsame.1 ▸ hentry)
    | orphan => exact h
    | release => exact h
    | chunk transferSeq frame header assembler after hmem haccept =>
      exact hset _ _ _ ((h _ hmem).accept haccept)
    | complete transferSeq => exact hdrop transferSeq
    | drop transferSeq => exact hdrop transferSeq
  | start header fromDeviceId assembler _ hcreate =>
    exact hset _ _ _ (ChunkAssembler.wellFormed_create hcreate)
  | enqueue message =>
    exact fun entry hentry => h entry ((sameInbound_enqueue message s).1 ▸ hentry)

theorem onFrameOrThrow_eq {s : Session} (h : s.Assembling) (frame : ChunkFrame) :
    s.onFrameOrThrow frame = (s.onFrame frame, none) := by
  unfold onFrameOrThrow onFrame
  cases hfind : s.assemblers.find? (·.1 = frame.transferSeq) with
  | none =>
    dsimp only
    by_cases hroom : s.orphanFrames.length < maxOrphanFrames
    · rw [if_pos hroom, if_pos hroom]
    · rw [if_neg hroom, if_neg hroom]
  | some entry =>
    obtain ⟨key, header, assembler⟩ := entry
    rcases haccept : assembler.accept frame with ⟨after, accepted⟩
    have hwell := (h _ (find_assembler hfind)).accept haccept
    dsimp only
    rw [haccept]
    cases accepted with
    | false => rfl
    | true =>
      dsimp only
      by_cases hcomplete : after.isComplete = true
      · rw [if_pos hcomplete, if_pos hcomplete, hwell.assembleOrThrow hcomplete]
      · rw [if_neg hcomplete, if_neg hcomplete]

theorem assembling_steps {s t : Session} (h : InboundSteps s t) (hs : s.Assembling) :
    t.Assembling :=
  keeps_steps (P := Assembling) (fun _ _ hstep => assembling_step hstep) h hs

theorem releaseOrphansOrThrow_eq {s : Session} (h : s.Assembling) (transferSeq count : Nat) :
    s.releaseOrphansOrThrow transferSeq count = (s.releaseOrphans transferSeq count, none) := by
  induction count generalizing s with
  | zero => rfl
  | succ index ih =>
    unfold releaseOrphansOrThrow releaseOrphans
    cases hget : s.orphanFrames[index]? with
    | none => exact ih h
    | some frame =>
      dsimp only
      by_cases hseq : frame.transferSeq = transferSeq
      · have hreleased : Assembling { s with orphanFrames := s.orphanFrames.eraseIdx index } := h
        have hnext := assembling_steps (steps_onFrame frame _).inbound hreleased
        rw [if_pos hseq, if_pos hseq, onFrameOrThrow_eq hreleased]
        dsimp only
        rw [ih hnext]
      · rw [if_neg hseq, if_neg hseq]
        exact ih h

/-- The only assertion a header can fail is the one on the number of its chunks. -/
theorem onHeaderOrThrow_eq {s : Session} (h : s.Assembling) (header : RevisionHeader)
    {fromDeviceId : DeviceId} (hremote : s.remoteDeviceId = some fromDeviceId) :
    (s.onHeaderOrThrow ⟨header, fromDeviceId⟩).1 = s.onHeader ⟨header, fromDeviceId⟩ ∧
      ((s.onHeaderOrThrow ⟨header, fromDeviceId⟩).2.isSome ↔ header.totalChunks = 0) := by
  unfold onHeaderOrThrow onHeader
  cases hcreate : ChunkAssembler.create header.totalChunks header.sizeBytes with
  | error error =>
    refine ⟨rfl, ⟨fun _ => ?_, fun _ => rfl⟩⟩
    by_contra hpos
    simp only [ChunkAssembler.create, Nat.pos_of_ne_zero hpos, decide_true, assert_true] at hcreate
    cases hcreate
  | ok assembler =>
    have hset := assembling_step (.start header fromDeviceId assembler hremote hcreate) h
    dsimp only
    rw [releaseOrphansOrThrow_eq hset]
    refine ⟨rfl, ⟨fun hthrown => (by cases hthrown), fun hzero => ?_⟩⟩
    simp only [ChunkAssembler.create, hzero, Nat.lt_irrefl, decide_false, assert_false] at hcreate
    cases hcreate

theorem acceptOrThrow_eq {s : Session} (h : s.Assembling) (payload : Except Failure Message) :
    (s.acceptOrThrow payload).1 = s.accept payload ∧
      ((s.acceptOrThrow payload).2.isSome ↔ ∃ header, payload = .ok (.revisionHeader header) ∧
        header.totalChunks = 0 ∧ s.remoteDeviceId ≠ none) := by
  unfold acceptOrThrow
  split
  · rename_i header
    split
    · rename_i hremote
      simp [accept, hremote]
    · rename_i fromDeviceId hremote
      obtain ⟨hfst, hthrown⟩ := onHeaderOrThrow_eq h header hremote
      refine ⟨by rw [hfst]; simp only [accept, hremote], hthrown.trans ?_⟩
      simp [hremote]
  · rename_i hnot
    refine ⟨rfl, ⟨fun hthrown => (by cases hthrown), ?_⟩⟩
    rintro ⟨header, rfl, -⟩
    exact (hnot header rfl).elim

theorem acceptBulkOrThrow_eq {s : Session} (h : s.Assembling) (frame : Bytes) :
    s.acceptBulkOrThrow frame = (s.acceptBulk frame, none) := by
  unfold acceptBulkOrThrow acceptBulk
  cases decodeChunkFrame frame with
  | none => rfl
  | some frame => exact onFrameOrThrow_eq h frame

end Session

open Async

theorem reach_assembling {deps : EngineDeps} {config : SessionDeps}
    {w : Pool Peer PeerEvent Failure}
    (h : Reach (peerSystem deps) (Starting config) (fun _ _ => True) w) :
    w.state.session.Assembling := by
  refine reach_session (P := Session.Assembling) (by simp [Session.Assembling, Session.new])
    (fun s events t haccess _ hs => ?_) h
  cases haccess with
  | run hrun => exact fun entry hentry => hs entry (hrun.untouched.assemblers ▸ hentry)
  | ingest hingest => exact fun entry hentry => hs entry (hingest.untouched.assemblers ▸ hentry)
  | control payload =>
    exact Session.assembling_steps (Session.steps_accept payload s.session) hs
  | bulk frame =>
    exact Session.assembling_steps (Session.steps_acceptBulk frame s.session).inbound hs

/-- In any phase of a session a channel callback throws exactly when it is given a header without
chunks once the peer is accepted. -/
theorem callback_throws_iff (deps : EngineDeps) (config : SessionDeps)
    {w : Pool Peer PeerEvent Failure}
    (h : Reach (peerSystem deps) (Starting config) (fun _ _ => True) w) :
    (∀ payload, (w.state.session.acceptOrThrow payload).2.isSome ↔
      ∃ header, payload = .ok (.revisionHeader header) ∧ header.totalChunks = 0 ∧
        w.state.session.remoteDeviceId ≠ none) ∧
    ∀ frame, (w.state.session.acceptBulkOrThrow frame).2 = none := by
  have hassembling := reach_assembling h
  refine ⟨fun payload => (Session.acceptOrThrow_eq hassembling payload).2, fun frame => ?_⟩
  rw [Session.acceptBulkOrThrow_eq hassembling]

open SessionEnd in
theorem callback_throws_deskStart :
    (∀ payload, (deskStart.state.session.acceptOrThrow payload).2.isSome ↔
      ∃ header, payload = .ok (.revisionHeader header) ∧ header.totalChunks = 0 ∧
        deskStart.state.session.remoteDeviceId ≠ none) ∧
    ∀ frame, (deskStart.state.session.acceptBulkOrThrow frame).2 = none :=
  callback_throws_iff deskDeps deskConfig (.init deskStart ⟨rfl, rfl⟩)

/-- The phone says who it is, and the desk accepts it. -/
def phonePairs : List (Move PeerCommand) :=
  let phone message := Move.start (PeerCommand.control (parseMessage message))
  [.resume 0, phone (.hello protocolVersion ⟨"phone"⟩ "phone" "AA==" "AA=="),
    .resume 0, .resume 0, phone (.auth "AA=="), .resume 0, .resume 0]

def chunklessHeader : RevisionHeader :=
  ⟨1, ⟨"vault"⟩, ⟨"r"⟩, ⟨String.ofList (List.replicate 64 '0')⟩, 0, [], 0, none⟩

open SessionEnd in
/-- The parser accepts a header without chunks, and the callback throws on it. -/
theorem callback_throws_chunkless :
    ∃ w, Reach (peerSystem deskDeps) (Starting deskConfig) (fun _ _ => True) w ∧
      parseMessage (.revisionHeader chunklessHeader) = .ok (.revisionHeader chunklessHeader) ∧
      (w.state.session.acceptOrThrow (parseMessage (.revisionHeader chunklessHeader))).2 =
        some (.contract "Contract violation: a transfer must have at least one chunk") := by
  have hplay : (deskStart.play (peerSystem deskDeps) phonePairs).map
      (·.state.session.remoteDeviceId) = some (some ⟨"phone"⟩) := by decide +kernel
  obtain ⟨w, hw, hremote⟩ := Option.map_eq_some_iff.mp hplay
  have hparse : parseMessage (.revisionHeader chunklessHeader) =
      .ok (.revisionHeader chunklessHeader) := rfl
  refine ⟨w, (Reach.init deskStart ⟨rfl, rfl⟩).play hw, hparse, ?_⟩
  rw [hparse, Session.acceptOrThrow, hremote]
  rfl

end PassVault
