import PassVault.Core.Transfer
import PassVault.Sync.Callbacks

/-!
# Transfers over two channels

The header of a revision travels on the control channel and its chunks on the bulk channel. Each
channel delivers in order, but either may run ahead of the other. Frames that beat their header
wait in `orphanFrames`, which holds `maxOrphanFrames` of them at most.
-/

namespace PassVault

/-- A revision as `serve` sends it, with a header that the other side accepts. -/
structure Transfer where
  header : RevisionHeader
  bytes : Bytes
  chunkBytes : Nat
  frames : List Bytes
  size : header.sizeBytes = bytes.length
  count : chunkCountFor bytes.length chunkBytes = .ok header.totalChunks
  encoded : encodeTransfer bytes chunkBytes header.transferSeq = .ok frames
  bounded : parseMessage (.revisionHeader header) = .ok (.revisionHeader header)

namespace Transfer

def frame (t : Transfer) (chunkIndex : Nat) : ChunkFrame :=
  ⟨t.header.transferSeq, chunkIndex, chunkPayload t.bytes t.chunkBytes chunkIndex⟩

/-- What `queueIngest` is given for it. -/
def inbound (t : Transfer) (fromDeviceId : DeviceId) : InboundHeader × Bytes :=
  (⟨t.header, fromDeviceId⟩, t.bytes)

theorem pos (t : Transfer) : 0 < t.header.totalChunks := (chunkCountFor_ok t.count).2.1

theorem covered (t : Transfer) : t.bytes.length ≤ t.header.totalChunks * t.chunkBytes :=
  (chunkCountFor_ok t.count).2.2

theorem frames_encoded (t : Transfer) :
    List.Forall₂ (fun i frame => encodeChunkFrame (t.frame i) = .ok frame)
      (List.range t.header.totalChunks) t.frames := by
  have h := t.encoded
  rw [encodeTransfer, t.count] at h
  exact mapM_eq_ok.mp h

theorem length_frames (t : Transfer) : t.frames.length = t.header.totalChunks := by
  have h := t.frames_encoded.length_eq
  simpa using h.symm

/-- The frames come in the order of their chunks. -/
theorem decode_frames (t : Transfer) {i : Nat} {frame : Bytes} (h : t.frames[i]? = some frame) :
    i < t.header.totalChunks ∧ decodeChunkFrame frame = some (t.frame i) := by
  obtain ⟨hi, rfl⟩ := List.getElem?_eq_some_iff.mp h
  have hin : i < t.header.totalChunks := t.length_frames ▸ hi
  refine ⟨hin, decode_encodeChunkFrame ?_⟩
  have hget := (List.forall₂_iff_get.mp t.frames_encoded).2 i (by simpa using hin) hi
  simpa using hget

end Transfer

/-! ## What the receiver does -/

namespace Session

variable {t : Transfer} {fromDeviceId : DeviceId} {s : Session} {arrived : List Nat}
  {assembler : ChunkAssembler}

/-- The session with one transfer under way. -/
def gathering (t : Transfer) (fromDeviceId : DeviceId) (assembler : ChunkAssembler)
    (s : Session) : Session :=
  { s with assemblers := [(t.header.transferSeq, ⟨t.header, fromDeviceId⟩, assembler)] }

/-- The session once that transfer is queued. -/
def gathered (t : Transfer) (fromDeviceId : DeviceId) (s : Session) : Session :=
  { s with assemblers := [], inboundWork := s.inboundWork ++ [t.inbound fromDeviceId] }

theorem onFrame_gathering (fromDeviceId : DeviceId) (s : Session) {i : Nat}
    (h : Gathered t.bytes t.chunkBytes t.header.totalChunks arrived assembler)
    (hi : i < t.header.totalChunks) (hnew : i ∉ arrived) :
    ∃ after, Gathered t.bytes t.chunkBytes t.header.totalChunks (arrived ++ [i]) after ∧
      (s.gathering t fromDeviceId assembler).onFrame (t.frame i) =
        (if ∀ j < t.header.totalChunks, j ∈ arrived ++ [i] then s.gathered t fromDeviceId
          else s.gathering t fromDeviceId after, []) := by
  obtain ⟨after, haccept, hafter⟩ := h.accept t.covered hi t.header.transferSeq
  rw [if_neg hnew] at hafter
  refine ⟨after, hafter, ?_⟩
  have hcomplete := hafter.isComplete_iff t.covered
  have hfind : (s.gathering t fromDeviceId assembler).assemblers.find?
      (·.1 = (t.frame i).transferSeq) =
        some (t.header.transferSeq, ⟨t.header, fromDeviceId⟩, assembler) := by
    simp [gathering, Transfer.frame]
  unfold onFrame
  rw [hfind]
  dsimp only
  rw [show assembler.accept (t.frame i) = (after, true) from haccept]
  dsimp only
  by_cases hall : ∀ j < t.header.totalChunks, j ∈ arrived ++ [i]
  · rw [if_pos (hcomplete.mpr hall), if_pos hall, hafter.assemble t.covered hall]
    simp [gathering, gathered, dropAssembler, queueIngest, Transfer.frame, Transfer.inbound]
  · rw [if_neg (fun hc => hall (hcomplete.mp hc)), if_neg hall]
    simp [gathering, setAssembler, Transfer.frame]

/-- Releasing the first `n` frames of a transfer of which the frames from `n` up to `m` have
arrived. -/
theorem releaseOrphans_gathering (fromDeviceId : DeviceId) {n m : Nat} (hnm : n ≤ m) (hm : m ≤ t.header.totalChunks)
    (hmore : n = 0 → m < t.header.totalChunks)
    (h : Gathered t.bytes t.chunkBytes t.header.totalChunks arrived assembler)
    (harrived : ∀ i, i ∈ arrived ↔ n ≤ i ∧ i < m)
    (horphans : s.orphanFrames = (List.range n).map t.frame) :
    ∃ arrived' after, Gathered t.bytes t.chunkBytes t.header.totalChunks arrived' after ∧
      (∀ i, i ∈ arrived' ↔ i < m) ∧
      releaseOrphans t.header.transferSeq n (s.gathering t fromDeviceId assembler) =
        (if m = t.header.totalChunks then { s with orphanFrames := [] }.gathered t fromDeviceId
          else { s with orphanFrames := [] }.gathering t fromDeviceId after, []) := by
  -- The frames go from the last one down, so the transfer is complete with frame 0 at the soonest.
  induction n generalizing s arrived assembler with
  | zero =>
    refine ⟨arrived, assembler, h, by simpa using harrived, ?_⟩
    have hlt := hmore rfl
    have hsame : { s with orphanFrames := [] } = s := by
      rw [List.range_zero, List.map_nil] at horphans
      rw [← horphans]
    rw [releaseOrphans, if_neg (Nat.ne_of_lt hlt), hsame]
  | succ n ih =>
    have hn : n < t.header.totalChunks := by omega
    have hnew : n ∉ arrived := fun hmem => by
      have := ((harrived n).mp hmem).1
      omega
    have hget : (s.gathering t fromDeviceId assembler).orphanFrames[n]? = some (t.frame n) := by
      simp [gathering, horphans]
    have hseq : (t.frame n).transferSeq = t.header.transferSeq := rfl
    have herase : { s.gathering t fromDeviceId assembler with
        orphanFrames := (s.gathering t fromDeviceId assembler).orphanFrames.eraseIdx n } =
          { s with orphanFrames := (List.range n).map t.frame }.gathering t fromDeviceId
            assembler := by
      have hlast : ((List.range (n + 1)).map t.frame).eraseIdx n =
          (List.range n).map t.frame := by
        rw [List.range_succ, List.map_append, List.eraseIdx_append_of_length_le (by simp)]
        simp
      simp [gathering, horphans, hlast]
    obtain ⟨after, hafter, hframe⟩ := onFrame_gathering fromDeviceId
      { s with orphanFrames := (List.range n).map t.frame } h hn hnew
    have harrived' : ∀ i, i ∈ arrived ++ [n] ↔ n ≤ i ∧ i < m := by
      intro i
      rw [List.mem_append, harrived, List.mem_singleton]
      omega
    have hall : (∀ j < t.header.totalChunks, j ∈ arrived ++ [n]) ↔
        n = 0 ∧ m = t.header.totalChunks := by
      constructor
      · intro hj
        have hfirst := (harrived' 0).mp (hj 0 t.pos)
        have hlast := (harrived' (t.header.totalChunks - 1)).mp (hj _ (by omega))
        omega
      · rintro ⟨rfl, rfl⟩ j hj
        exact (harrived' j).mpr ⟨Nat.zero_le j, hj⟩
    rw [releaseOrphans, hget]
    dsimp only
    rw [if_pos hseq, herase, hframe]
    dsimp only
    by_cases hdone : ∀ j < t.header.totalChunks, j ∈ arrived ++ [n]
    · obtain ⟨rfl, hm⟩ := hall.mp hdone
      refine ⟨arrived ++ [0], after, hafter, ?_, ?_⟩
      · intro i
        rw [harrived']
        omega
      · rw [if_pos hdone, if_pos hm]
        simp [releaseOrphans]
    · obtain ⟨arrived', after', hgathered, hmem, hrest⟩ :=
        ih (s := { s with orphanFrames := (List.range n).map t.frame }) (by omega)
          (fun hzero => by
            have hne : m ≠ t.header.totalChunks := fun hmt => hdone (hall.mpr ⟨hzero, hmt⟩)
            omega)
          hafter harrived' rfl
      refine ⟨arrived', after', hgathered, hmem, ?_⟩
      rw [if_neg hdone, hrest]
      rfl

/-- A header without an assembler under way starts one, and releases the frames that wait. -/
theorem accept_header (hremote : s.remoteDeviceId = some fromDeviceId)
    (hassemblers : s.assemblers = []) (t : Transfer) :
    s.accept (parseMessage (.revisionHeader t.header)) =
      releaseOrphans t.header.transferSeq s.orphanFrames.length
        (s.gathering t fromDeviceId ⟨t.header.totalChunks, t.bytes.length, [], 0⟩) := by
  rw [t.bounded]
  simp only [accept, hremote]
  simp only [onHeader, ChunkAssembler.create, t.pos, decide_true, assert_true, t.size]
  simp [setAssembler, gathering, hassemblers]

end Session

/-! ## The two channels -/

/-- The sender and the receiver of the transfers of one session, with what is on its way. -/
structure Link where
  toSend : List Transfer
  /-- The transfers whose header was sent, and whether `serve` still waits for the last ack. -/
  begun : List Transfer
  busy : Bool
  /-- The frames of the last one that are still to be sent. -/
  pending : List Bytes
  control : List RevisionHeader
  bulk : List Bytes
  receiver : Session
  /-- The ingests that were taken off the `inboundWork` chain, and the one under way. -/
  taken : List (InboundHeader × Bytes)
  ingesting : Option InboundHeader
  acks : List RevisionId

inductive LinkMove where
  | sendHeader
  | sendFrame
  | deliverHeader
  | deliverFrame
  | ingestNext
  /-- The ingest under way ends, with why it was rejected. -/
  | ingested (reason : Option String)
  | ack
  /-- Anything else the receiver does. -/
  | other (receiver : Session)

/-- The session after an ingest ended. -/
def Session.answered (revisionId : RevisionId) : Option String → Session → Session
  | none, s => (s.accepted revisionId).1
  | some reason, s => (s.reject revisionId reason).1

theorem Session.sameInbound_answered (s : Session) (revisionId : RevisionId)
    (reason : Option String) : s.SameInbound (s.answered revisionId reason) := by
  cases reason with
  | none => exact Session.sameInbound_accepted revisionId s
  | some reason => exact Session.sameInbound_reject revisionId reason s

namespace Link

def start (toSend : List Transfer) (receiver : Session) : Link :=
  ⟨toSend, [], false, [], [], [], receiver, [], none, []⟩

def step : LinkMove → Link → Option Link
  | .sendHeader, link =>
    match link.busy, link.toSend with
    | false, t :: rest =>
      some { link with
        toSend := rest
        begun := link.begun ++ [t]
        busy := true
        pending := t.frames
        control := link.control ++ [t.header] }
    | _, _ => none
  | .sendFrame, link =>
    match link.pending with
    | frame :: rest => some { link with pending := rest, bulk := link.bulk ++ [frame] }
    | [] => none
  | .deliverHeader, link =>
    match link.control with
    | header :: rest =>
      some { link with
        control := rest
        receiver := (link.receiver.accept (parseMessage (.revisionHeader header))).1 }
    | [] => none
  | .deliverFrame, link =>
    match link.bulk with
    | frame :: rest =>
      some { link with bulk := rest, receiver := (link.receiver.acceptBulk frame).1 }
    | [] => none
  | .ingestNext, link =>
    match link.ingesting, link.receiver.inboundWork with
    | none, (inbound, bytes) :: rest =>
      some { link with
        receiver := { link.receiver with inboundWork := rest }
        taken := link.taken ++ [(inbound, bytes)]
        ingesting := some inbound }
    | _, _ => none
  | .ingested reason, link =>
    match link.ingesting with
    | some inbound =>
      some { link with
        receiver := link.receiver.answered inbound.header.revisionId reason
        ingesting := none
        acks := link.acks ++ [inbound.header.revisionId] }
    | none => none
  | .ack, link =>
    match link.pending, link.acks with
    | [], revisionId :: rest =>
      some { link with
        acks := rest
        busy := link.busy && link.begun.getLast?.map (·.header.revisionId) ≠ some revisionId }
    | _, _ => none
  | .other receiver, link =>
    if link.receiver.SameInbound receiver then some { link with receiver } else none

/-- Make a list of moves through links that meet `cond`. -/
def play (cond : Link → Prop) [DecidablePred cond] : List LinkMove → Link → Option Link
  | [], link => some link
  | move :: rest, link =>
    match link.step move with
    | some link' => if cond link' then play cond rest link' else none
    | none => none

/-- The ingests that the receiver has queued so far. -/
def queued (link : Link) : List (InboundHeader × Bytes) :=
  link.taken ++ link.receiver.inboundWork

/-- The acknowledgements that are on their way or will follow from what is queued. -/
def owed (link : Link) : List RevisionId :=
  link.acks ++ link.ingesting.toList.map (·.header.revisionId) ++
    link.receiver.inboundWork.map (·.1.header.revisionId)

/-- The acknowledgement that `serve` waits for. -/
def awaited (link : Link) : List RevisionId :=
  if link.busy then (link.begun.getLast?.map (·.header.revisionId)).toList else []

/-- Whatever was begun has been delivered, header and frames. -/
def Delivered (link : Link) : Prop :=
  link.control = [] ∧ link.bulk = [] ∧ link.pending = []

instance (link : Link) : Decidable link.Delivered :=
  inferInstanceAs (Decidable (_ ∧ _))

/-- How many frames have been delivered ahead of their header. -/
def ahead (link : Link) : Nat :=
  if link.control = [] then 0
  else (link.begun.getLast?.elim 0 (·.frames.length)) - (link.bulk ++ link.pending).length

/-- The links that runs from `init` reach through links that meet `cond`. -/
inductive Reach (init : Link) (cond : Link → Prop) : Link → Prop where
  | init : Reach init cond init
  | step {link link' : Link} {move : LinkMove} (hreach : Reach init cond link)
      (hstep : link.step move = some link') (hcond : cond link') : Reach init cond link'

theorem Reach.play {start : Link} {cond : Link → Prop} [DecidablePred cond]
    {moves : List LinkMove} {link link' : Link} (h : Reach start cond link)
    (hplay : play cond moves link = some link') : Reach start cond link' := by
  induction moves generalizing link with
  | nil =>
    cases hplay
    exact h
  | cons move rest ih =>
    rw [Link.play] at hplay
    split at hplay
    · rename_i next hstep
      split at hplay
      · rename_i hcond
        exact ih (h.step hstep hcond) hplay
      · cases hplay
    · cases hplay

/-- The transfer `t` is under way: `count` of its frames have arrived, and everything before it is
acknowledged. -/
structure Sending (fromDeviceId : DeviceId) (link : Link) (done : List Transfer) (t : Transfer)
    (count : Nat) : Prop where
  begun : link.begun = done ++ [t]
  frames : link.bulk ++ link.pending = t.frames.drop count
  queued : link.queued = done.map (·.inbound fromDeviceId)
  work : link.receiver.inboundWork = []
  busy : link.busy = true
  acks : link.acks = []
  ingesting : link.ingesting = none

/-- How far the last transfer that was begun has come. -/
inductive Phase (fromDeviceId : DeviceId) (link : Link) : Prop where
  | delivered (hsent : link.Delivered) (hassemblers : link.receiver.assemblers = [])
      (horphans : link.receiver.orphanFrames = [])
      (hqueued : link.queued = link.begun.map (·.inbound fromDeviceId))
      (howed : link.owed = link.awaited)
  /-- The header has not arrived. -/
  | ahead (done : List Transfer) (t : Transfer) (count : Nat)
      (hsending : link.Sending fromDeviceId done t count) (hcontrol : link.control = [t.header])
      (hcount : count ≤ t.header.totalChunks) (hassemblers : link.receiver.assemblers = [])
      (horphans : link.receiver.orphanFrames = (List.range count).map t.frame)
  /-- The header has arrived, but not all of the frames. -/
  | gathering (done : List Transfer) (t : Transfer) (count : Nat) (arrived : List Nat)
      (assembler : ChunkAssembler) (hsending : link.Sending fromDeviceId done t count)
      (hcontrol : link.control = []) (hcount : count < t.header.totalChunks)
      (hassemblers : link.receiver.assemblers =
        [(t.header.transferSeq, ⟨t.header, fromDeviceId⟩, assembler)])
      (hgathered : Gathered t.bytes t.chunkBytes t.header.totalChunks arrived assembler)
      (harrived : ∀ i, i ∈ arrived ↔ i < count) (horphans : link.receiver.orphanFrames = [])

section Phase

variable {fromDeviceId : DeviceId} {link link' : Link}

/-- Nothing is begun while a transfer is under way. -/
theorem Phase.sendHeader (h : link.Phase fromDeviceId)
    (hstep : link.step .sendHeader = some link') : link'.Phase fromDeviceId := by
  simp only [step] at hstep
  split at hstep
  · rename_i t rest hbusy hsend
    cases hstep
    cases h with
    | delivered hsent hassemblers horphans hqueued howed =>
      obtain ⟨hcontrol, hbulk, -⟩ := hsent
      have hawaited : link.awaited = [] := by simp [awaited, hbusy]
      rw [hawaited, owed, List.append_eq_nil_iff, List.append_eq_nil_iff, List.map_eq_nil_iff,
        List.map_eq_nil_iff, Option.toList_eq_nil_iff] at howed
      obtain ⟨⟨hacks, hnone⟩, hwork⟩ := howed
      exact .ahead link.begun t 0 ⟨rfl, by simp [hbulk], hqueued, hwork, rfl, hacks, hnone⟩
        (by simp [hcontrol]) (Nat.zero_le _) hassemblers (by simpa using horphans)
    | ahead _ _ _ hsending => cases hbusy.symm.trans hsending.busy
    | gathering _ _ _ _ _ hsending => cases hbusy.symm.trans hsending.busy
  · cases hstep

theorem Phase.sendFrame (h : link.Phase fromDeviceId)
    (hstep : link.step .sendFrame = some link') : link'.Phase fromDeviceId := by
  simp only [step] at hstep
  split at hstep
  · rename_i frame rest hpending
    cases hstep
    have hmoved : link.bulk ++ [frame] ++ rest = link.bulk ++ link.pending := by
      simp [hpending]
    cases h with
    | delivered hsent => cases hpending.symm.trans hsent.2.2
    | ahead done t count hsending hcontrol hcount hassemblers horphans =>
      exact .ahead done t count { hsending with frames := hmoved.trans hsending.frames } hcontrol
        hcount hassemblers horphans
    | gathering done t count arrived assembler hsending hcontrol hcount hassemblers hgathered
        harrived horphans =>
      exact .gathering done t count arrived assembler
        { hsending with frames := hmoved.trans hsending.frames } hcontrol hcount hassemblers
        hgathered harrived horphans
  · cases hstep

/-- Once its last frame has arrived, nothing of a transfer is left on its way. -/
theorem Sending.delivered {done : List Transfer} {t : Transfer} {receiver : Session}
    {control : List RevisionHeader} {bulk : List Bytes} {count : Nat}
    (h : link.Sending fromDeviceId done t count) (hcontrol : control = [])
    (hframes : bulk ++ link.pending = t.frames.drop t.header.totalChunks)
    (hassemblers : receiver.assemblers = []) (horphans : receiver.orphanFrames = [])
    (hwork : receiver.inboundWork = link.receiver.inboundWork ++ [t.inbound fromDeviceId]) :
    Phase fromDeviceId { link with control, bulk, receiver } := by
  have hnil : t.frames.drop t.header.totalChunks = [] := by
    rw [List.drop_eq_nil_iff, t.length_frames]
  rw [hnil, List.append_eq_nil_iff] at hframes
  refine .delivered ⟨hcontrol, hframes⟩ hassemblers horphans ?_ ?_
  · have hqueued := h.queued
    simp only [Link.queued] at hqueued
    simp [Link.queued, hwork, h.begun, ← hqueued]
  · simp [owed, awaited, hwork, h.acks, h.ingesting, h.work, h.busy, h.begun, Transfer.inbound]

/-- The first frame on its way is the next one of the transfer. -/
theorem Sending.next {done : List Transfer} {t : Transfer} {count : Nat} {frame : Bytes}
    {rest : List Bytes} (h : link.Sending fromDeviceId done t count)
    (hbulk : link.bulk = frame :: rest) :
    count < t.header.totalChunks ∧ decodeChunkFrame frame = some (t.frame count) ∧
      rest ++ link.pending = t.frames.drop (count + 1) := by
  have hframes := h.frames
  rw [hbulk, List.cons_append] at hframes
  have hget : t.frames[count]? = some frame := by
    rw [← List.head?_drop, ← hframes, List.head?_cons]
  obtain ⟨hlt, hdecode⟩ := t.decode_frames hget
  refine ⟨hlt, hdecode, ?_⟩
  rw [← List.tail_drop, ← hframes, List.tail_cons]

/-- The header meets the frames that came before it. -/
theorem Phase.deliverHeader (hremote : link.receiver.remoteDeviceId = some fromDeviceId)
    (h : link.Phase fromDeviceId) (hstep : link.step .deliverHeader = some link') :
    link'.Phase fromDeviceId := by
  simp only [step] at hstep
  split at hstep
  · rename_i header rest hhead
    cases hstep
    cases h with
    | delivered hsent => cases hhead.symm.trans hsent.1
    | gathering _ _ _ _ _ _ hcontrol => cases hhead.symm.trans hcontrol
    | ahead done t count hsending hcontrol hcount hassemblers horphans =>
      cases hhead.symm.trans hcontrol
      obtain ⟨arrived, after, hgathered, hmem, hrelease⟩ :=
        Session.releaseOrphans_gathering (s := link.receiver) fromDeviceId (Nat.le_refl count)
          hcount (fun hzero => hzero ▸ t.pos) (Gathered.nil t.bytes t.chunkBytes _)
          (fun i => by simp) horphans
      have haccept := Session.accept_header hremote hassemblers t
      rw [horphans, List.length_map, List.length_range, hrelease] at haccept
      rw [haccept]
      by_cases hall : count = t.header.totalChunks
      · rw [if_pos hall]
        exact hsending.delivered rfl (hall ▸ hsending.frames) rfl rfl rfl
      · rw [if_neg hall]
        exact .gathering done t count arrived after { hsending with } rfl (by omega) rfl hgathered
          hmem rfl
  · cases hstep

/-- A frame waits for its header while there is room, and is taken up after it. -/
theorem Phase.deliverFrame (h : link.Phase fromDeviceId)
    (hstep : link.step .deliverFrame = some link')
    (hahead : link'.ahead ≤ Session.maxOrphanFrames) : link'.Phase fromDeviceId := by
  simp only [step] at hstep
  split at hstep
  · rename_i frame rest hbulk
    cases hstep
    cases h with
    | delivered hsent => cases hbulk.symm.trans hsent.2.1
    | ahead done t count hsending hcontrol hcount hassemblers horphans =>
      obtain ⟨hlt, hdecode, hrest⟩ := hsending.next hbulk
      have hroom : count < Session.maxOrphanFrames := by
        simp only [Link.ahead, hcontrol, List.cons_ne_nil, if_false, hsending.begun,
          List.getLast?_concat, Option.elim_some, hrest, List.length_drop, t.length_frames] at hahead
        omega
      have hwaits : link.receiver.acceptBulk frame =
          ({ link.receiver with orphanFrames := (List.range (count + 1)).map t.frame }, []) := by
        simp [Session.acceptBulk, hdecode, Session.onFrame, hassemblers, horphans, hroom,
          List.range_succ]
      rw [hwaits]
      exact .ahead done t (count + 1) { hsending with frames := hrest } hcontrol hlt hassemblers rfl
    | gathering done t count arrived assembler hsending hcontrol hcount hassemblers hgathered
        harrived horphans =>
      obtain ⟨hlt, hdecode, hrest⟩ := hsending.next hbulk
      have hnew : count ∉ arrived := fun hmem => Nat.lt_irrefl _ ((harrived count).mp hmem)
      obtain ⟨after, hafter, hframe⟩ :=
        Session.onFrame_gathering fromDeviceId link.receiver hgathered hlt hnew
      have hmem : ∀ i, i ∈ arrived ++ [count] ↔ i < count + 1 := by
        intro i
        rw [List.mem_append, harrived, List.mem_singleton]
        omega
      have hself : link.receiver.gathering t fromDeviceId assembler = link.receiver := by
        rw [Session.gathering, ← hassemblers]
      have hbulk : link.receiver.acceptBulk frame = link.receiver.onFrame (t.frame count) := by
        simp [Session.acceptBulk, hdecode]
      rw [hself] at hframe
      rw [hbulk, hframe]
      by_cases hall : ∀ j < t.header.totalChunks, j ∈ arrived ++ [count]
      · rw [if_pos hall]
        have hlast : count + 1 = t.header.totalChunks := by
          have := (hmem _).mp (hall (t.header.totalChunks - 1) (by omega))
          omega
        exact hsending.delivered hcontrol (hlast ▸ hrest) rfl horphans rfl
      · rw [if_neg hall]
        have hmore : count + 1 < t.header.totalChunks := by
          by_contra hge
          exact hall fun j hj => (hmem j).mpr (by omega)
        exact .gathering done t (count + 1) _ after { hsending with frames := hrest } hcontrol
          hmore rfl hafter hmem horphans
  · cases hstep

theorem Phase.ingestNext (h : link.Phase fromDeviceId)
    (hstep : link.step .ingestNext = some link') : link'.Phase fromDeviceId := by
  simp only [step] at hstep
  split at hstep
  · rename_i inbound bytes rest hnone hwork
    cases hstep
    cases h with
    | delivered hsent hassemblers horphans hqueued howed =>
      refine .delivered hsent hassemblers horphans ?_ ?_
      · simpa [queued, hwork] using hqueued
      · simpa [owed, awaited, hwork, hnone] using howed
    | ahead _ _ _ hsending => cases hwork.symm.trans hsending.work
    | gathering _ _ _ _ _ hsending => cases hwork.symm.trans hsending.work
  · cases hstep

theorem Phase.ingested {reason : Option String} (h : link.Phase fromDeviceId)
    (hstep : link.step (.ingested reason) = some link') : link'.Phase fromDeviceId := by
  simp only [step] at hstep
  split at hstep
  · rename_i inbound hsome
    cases hstep
    cases h with
    | delivered hsent hassemblers horphans hqueued howed =>
      obtain ⟨hassemblers', horphans', hwork, -⟩ :=
        link.receiver.sameInbound_answered inbound.header.revisionId reason
      refine .delivered hsent (hassemblers'.trans hassemblers) (horphans'.trans horphans) ?_ ?_
      · exact (congrArg (link.taken ++ ·) hwork).trans hqueued
      · simp only [owed, awaited, hsome] at howed ⊢
        simpa [hwork] using howed
    | ahead _ _ _ hsending => cases hsome.symm.trans hsending.ingesting
    | gathering _ _ _ _ _ hsending => cases hsome.symm.trans hsending.ingesting
  · cases hstep

theorem Phase.ack (h : link.Phase fromDeviceId) (hstep : link.step .ack = some link') :
    link'.Phase fromDeviceId := by
  simp only [step] at hstep
  split at hstep
  · rename_i revisionId rest hpending hacks
    cases hstep
    cases h with
    | delivered hsent hassemblers horphans hqueued howed =>
      refine .delivered hsent hassemblers horphans hqueued ?_
      simp only [owed, hacks, List.cons_append] at howed
      simp only [owed, awaited] at howed ⊢
      cases hbusy : link.busy with
      | false => simp [hbusy] at howed
      | true =>
        rw [hbusy, if_pos rfl] at howed
        cases hlast : link.begun.getLast?.map (·.header.revisionId) with
        | none => simp [hlast] at howed
        | some last =>
          rw [hlast, Option.toList_some, List.cons.injEq] at howed
          obtain ⟨rfl, howed⟩ := howed
          simpa using howed
    | ahead _ _ _ hsending => cases hacks.symm.trans hsending.acks
    | gathering _ _ _ _ _ hsending => cases hacks.symm.trans hsending.acks
  · cases hstep

theorem Phase.other {receiver : Session} (h : link.Phase fromDeviceId)
    (hstep : link.step (.other receiver) = some link') : link'.Phase fromDeviceId := by
  simp only [step] at hstep
  split at hstep
  · rename_i hsame
    cases hstep
    obtain ⟨hassemblers', horphans', hwork, -⟩ := hsame
    have hqueued' : Link.queued { link with receiver } = link.queued :=
      congrArg (link.taken ++ ·) hwork
    cases h with
    | delivered hsent hassemblers horphans hqueued howed =>
      refine .delivered hsent (hassemblers'.trans hassemblers) (horphans'.trans horphans)
        (hqueued'.trans hqueued) ?_
      simp only [owed, awaited] at howed ⊢
      rw [hwork]
      exact howed
    | ahead done t count hsending hcontrol hcount hassemblers horphans =>
      exact .ahead done t count
        { hsending with queued := hqueued'.trans hsending.queued, work := hwork.trans hsending.work }
        hcontrol hcount (hassemblers'.trans hassemblers) (horphans'.trans horphans)
    | gathering done t count arrived assembler hsending hcontrol hcount hassemblers hgathered
        harrived horphans =>
      exact .gathering done t count arrived assembler
        { hsending with queued := hqueued'.trans hsending.queued, work := hwork.trans hsending.work }
        hcontrol hcount (hassemblers'.trans hassemblers) hgathered harrived
        (horphans'.trans horphans)
  · cases hstep

theorem remoteDeviceId_step {move : LinkMove} (hstep : link.step move = some link') :
    link'.receiver.remoteDeviceId = link.receiver.remoteDeviceId := by
  cases move with
  | sendHeader | sendFrame | ack =>
    simp only [step] at hstep
    split at hstep
    · cases hstep
      rfl
    · cases hstep
  | deliverHeader =>
    simp only [step] at hstep
    split at hstep
    · cases hstep
      exact (Session.steps_accept _ _).remoteDeviceId
    · cases hstep
  | deliverFrame =>
    simp only [step] at hstep
    split at hstep
    · cases hstep
      exact (Session.steps_acceptBulk _ _).inbound.remoteDeviceId
    · cases hstep
  | ingestNext =>
    simp only [step] at hstep
    split at hstep
    · cases hstep
      rfl
    · cases hstep
  | ingested reason =>
    simp only [step] at hstep
    split at hstep
    · cases hstep
      exact (link.receiver.sameInbound_answered _ reason).2.2.2
    · cases hstep
  | other receiver =>
    simp only [step] at hstep
    split at hstep
    · rename_i hsame
      cases hstep
      exact hsame.2.2.2
    · cases hstep

theorem Phase.step {move : LinkMove} (hremote : link.receiver.remoteDeviceId = some fromDeviceId)
    (h : link.Phase fromDeviceId) (hstep : link.step move = some link')
    (hahead : link'.ahead ≤ Session.maxOrphanFrames) : link'.Phase fromDeviceId := by
  cases move with
  | sendHeader => exact h.sendHeader hstep
  | sendFrame => exact h.sendFrame hstep
  | deliverHeader => exact h.deliverHeader hremote hstep
  | deliverFrame => exact h.deliverFrame hstep hahead
  | ingestNext => exact h.ingestNext hstep
  | ingested reason => exact h.ingested hstep
  | ack => exact h.ack hstep
  | other receiver => exact h.other hstep

/-- What a transfer under way has left to deliver. -/
theorem Sending.not_delivered {done : List Transfer} {t : Transfer} {count : Nat}
    (h : link.Sending fromDeviceId done t count) (hcount : count < t.header.totalChunks) :
    ¬ link.Delivered := by
  rintro ⟨-, hbulk, hpending⟩
  have hframes := congrArg List.length h.frames
  rw [hbulk, hpending, List.length_drop, t.length_frames] at hframes
  simp only [List.append_nil, List.length_nil] at hframes
  omega

theorem Phase.queued (h : link.Phase fromDeviceId) :
    link.queued = (if link.Delivered then link.begun else link.begun.dropLast).map
      (·.inbound fromDeviceId) := by
  cases h with
  | delivered hsent _ _ hqueued =>
    rw [if_pos hsent]
    exact hqueued
  | ahead done t count hsending hcontrol =>
    have hnot : ¬ link.Delivered := fun h => by cases hcontrol.symm.trans h.1
    rw [if_neg hnot, hsending.begun, List.dropLast_concat]
    exact hsending.queued
  | gathering done t count _ _ hsending _ hcount =>
    rw [if_neg (hsending.not_delivered hcount), hsending.begun, List.dropLast_concat]
    exact hsending.queued

end Phase

end Link

/-- The two channels may race as long as no more than `maxOrphanFrames` frames are delivered
ahead of their header: the receiver queues one ingest for each transfer that is delivered whole,
with the bytes that were sent, and none for a transfer that is not. -/
theorem transfers_queued (toSend : List Transfer) (receiver : Session) (fromDeviceId : DeviceId)
    (hremote : receiver.remoteDeviceId = some fromDeviceId) (hassemblers : receiver.assemblers = [])
    (horphans : receiver.orphanFrames = []) (hwork : receiver.inboundWork = []) {link : Link}
    (h : Link.Reach (.start toSend receiver) (fun link => link.ahead ≤ Session.maxOrphanFrames)
      link) :
    link.queued = (if link.Delivered then link.begun else link.begun.dropLast).map
      (·.inbound fromDeviceId) := by
  have hphase : link.receiver.remoteDeviceId = some fromDeviceId ∧ link.Phase fromDeviceId := by
    induction h with
    | init =>
      refine ⟨hremote, .delivered ⟨rfl, rfl, rfl⟩ hassemblers horphans hwork ?_⟩
      simp [Link.owed, Link.awaited, Link.start, hwork]
    | step _ hstep hahead ih =>
      exact ⟨(Link.remoteDeviceId_step hstep).trans ih.1, ih.2.step ih.1 hstep hahead⟩
  exact hphase.2.queued

/-- A revision of that many bytes, sent in chunks of one byte. -/
def smallChunks (size : Nat) : RevisionHeader :=
  ⟨1, ⟨"home"⟩, ⟨"second"⟩, ⟨String.ofList (List.replicate 64 '0')⟩, size, [⟨"first"⟩], size, none⟩

def smallFrames (size : Nat) : List Bytes :=
  (List.range size).map fun i => uint32Bytes 1 ++ (uint32Bytes i ++ [7])

def twoChunks : Transfer where
  header := smallChunks 2
  bytes := List.replicate 2 7
  chunkBytes := 1
  frames := smallFrames 2
  size := rfl
  count := rfl
  encoded := by decide +kernel
  bounded := rfl

def manyChunks : Transfer where
  header := smallChunks 65
  bytes := List.replicate 65 7
  chunkBytes := 1
  frames := smallFrames 65
  size := rfl
  count := rfl
  encoded := by decide +kernel
  bounded := rfl

def pairedReceiver : Session := { Session.new with remoteDeviceId := some ⟨"desk"⟩ }

/-- All the frames of a transfer arrive before its header. -/
def framesFirst (count : Nat) : List LinkMove :=
  .sendHeader :: (List.replicate count .sendFrame ++ List.replicate count .deliverFrame ++
    [.deliverHeader])

theorem transfers_queued_twoChunks :
    ∃ link : Link, link.Delivered ∧ link.begun.map (·.header) = [twoChunks.header] ∧
      link.queued = link.begun.map (·.inbound ⟨"desk"⟩) := by
  have hplay : ((Link.play (fun link => link.ahead ≤ Session.maxOrphanFrames) (framesFirst 2)
      (.start [twoChunks] pairedReceiver)).any fun link =>
        link.Delivered ∧ link.begun.map (·.header) = [twoChunks.header]) = true := by
    decide +kernel
  obtain ⟨link, hlink, hend⟩ := (Option.any_eq_true _ _).mp hplay
  obtain ⟨hdelivered, hbegun⟩ := of_decide_eq_true hend
  have hqueued := transfers_queued [twoChunks] pairedReceiver ⟨"desk"⟩ rfl rfl rfl rfl
    (Link.Reach.init.play hlink)
  rw [if_pos hdelivered] at hqueued
  exact ⟨link, hdelivered, hbegun, hqueued⟩

/-- When 65 frames arrive before their header, the last one is lost, and with it the transfer. -/
theorem transfers_lost :
    ∃ link, Link.Reach (.start [manyChunks] pairedReceiver) (fun _ => True) link ∧
      link.Delivered ∧ link.begun.map (·.header) = [manyChunks.header] ∧ link.queued = [] := by
  have hplay : ((Link.play (fun _ => True) (framesFirst 65)
      (.start [manyChunks] pairedReceiver)).any fun link =>
        link.Delivered ∧ link.begun.map (·.header) = [manyChunks.header] ∧ link.queued = []) =
          true := by
    decide +kernel
  obtain ⟨link, hlink, hend⟩ := (Option.any_eq_true _ _).mp hplay
  exact ⟨link, Link.Reach.init.play hlink, of_decide_eq_true hend⟩

end PassVault
