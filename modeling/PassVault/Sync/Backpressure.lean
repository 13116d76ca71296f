import PassVault.Core.Transfer
import PassVault.Lib.Machine

/-!
# Backpressure

How much `serve` of `packages/sync/src/session.ts` has handed to the bulk channel that has not
drained: over the channel of `memoryLink.ts`, which knows, and over that of `peerLinkHub.ts`, which is
told. Nothing happens to a channel until its sender waits.
-/

namespace PassVault

open Machine

/-- A bulk channel, what happens to it, and what has not drained. -/
structure BulkChannel (σ ε : Type) where
  bufferedAmount : σ → Nat
  undrained : σ → Nat
  send : Nat → σ → σ
  /-- Does `drain` resolve at once? -/
  drained : σ → Bool
  /-- With whether those that wait for it to drain are released. -/
  next : σ → ε → Option (σ × Bool)

/-! ## The channels -/

/-- A `MemoryChannel` holds the sizes of what is to be delivered. -/
structure MemoryChannel where
  queue : List Nat
  closed : Bool
deriving DecidableEq, Repr

inductive MemoryEvent where
  | deliver
  | close
deriving DecidableEq, Repr

namespace MemoryChannel

def new : MemoryChannel := ⟨[], false⟩

def bufferedAmount (s : MemoryChannel) : Nat := s.queue.sum

def send (size : Nat) (s : MemoryChannel) : MemoryChannel :=
  if s.closed then s else { s with queue := s.queue ++ [size] }

def next (lowWaterBytes : Nat) (s : MemoryChannel) : MemoryEvent → Option (MemoryChannel × Bool)
  | .deliver =>
    match s.queue with
    | [] => none
    | _ :: queue => some ({ s with queue }, queue.sum ≤ lowWaterBytes)
  | .close => some ({ s with closed := true }, false)

/-- It counts what it has not delivered. -/
def channel (lowWaterBytes : Nat) : BulkChannel MemoryChannel MemoryEvent where
  bufferedAmount := bufferedAmount
  undrained := bufferedAmount
  send := send
  drained s := s.bufferedAmount ≤ lowWaterBytes
  next := next lowWaterBytes

end MemoryChannel

/-- A `HubChannel` has what was reported last. What the renderer still holds of what it was sent is
not known to it. -/
structure HubChannel where
  buffered : Nat
  closed : Bool
  undrained : Nat
deriving DecidableEq, Repr

inductive HubEvent where
  /-- Bytes leave the renderer. -/
  | drain (size : Nat)
  | reportBuffered (size : Nat)
  | close
deriving DecidableEq, Repr

namespace HubChannel

def lowWaterBytes : Nat := 256 * 1024

def new : HubChannel := ⟨0, false, 0⟩

def send (size : Nat) (s : HubChannel) : HubChannel :=
  if s.closed then s else { s with undrained := s.undrained + size }

def next (s : HubChannel) : HubEvent → Option (HubChannel × Bool)
  | .drain size =>
    if size ≤ s.undrained then some ({ s with undrained := s.undrained - size }, false) else none
  | .reportBuffered size => some ({ s with buffered := size }, size ≤ lowWaterBytes)
  | .close => some ({ s with closed := true }, true)

def channel : BulkChannel HubChannel HubEvent where
  bufferedAmount := buffered
  undrained := undrained
  send := send
  drained s := s.closed || s.buffered ≤ lowWaterBytes
  next := next

end HubChannel

/-! ## Serving -/

/-- The frames of a revision as the loop comes to them. -/
def framesOf (chunkBytes : Nat) (bytes : Bytes) (transferSeq : Nat) : List (Except Failure Bytes) :=
  match chunkCountFor bytes.length chunkBytes with
  | .error _ => []
  | .ok totalChunks => (List.range totalChunks).map fun chunkIndex =>
      encodeChunkFrame ⟨transferSeq, chunkIndex, chunkPayload bytes chunkBytes chunkIndex⟩

inductive Sending where
  /-- It waits for something else than the channel. -/
  | away
  /-- It waits for the channel to drain, before it sends the frame and the rest. -/
  | draining (frame : Except Failure Bytes) (rest : List (Except Failure Bytes)) (released : Bool)

structure Serving (σ : Type) where
  channel : σ
  sending : Sending

inductive ServeAction (ε : Type) where
  /-- It goes on to a revision. -/
  | revision (bytes : Bytes) (transferSeq : Nat)
  /-- It goes on after `drain`. -/
  | resume
  | channel (event : ε)

structure ServeOptions where
  chunkBytes : Nat
  highWaterBytes : Nat
deriving DecidableEq, Repr

namespace Serving

variable {σ ε : Type}

/-- The loop over the frames, up to where it waits or throws. -/
def sendFrames (options : ServeOptions) (link : BulkChannel σ ε) :
    List (Except Failure Bytes) → σ → Serving σ
  | [], s => ⟨s, .away⟩
  | frame :: rest, s =>
    if options.highWaterBytes < link.bufferedAmount s then
      ⟨s, .draining frame rest (link.drained s)⟩
    else
      match frame with
      | .error _ => ⟨s, .away⟩
      | .ok bytes => sendFrames options link rest (link.send bytes.length s)

theorem sendFrames_cons (options : ServeOptions) (link : BulkChannel σ ε)
    (frame : Except Failure Bytes) (rest : List (Except Failure Bytes)) (s : σ) :
    sendFrames options link (frame :: rest) s =
      if options.highWaterBytes < link.bufferedAmount s then
        ⟨s, .draining frame rest (link.drained s)⟩
      else
        match frame with
        | .error _ => ⟨s, .away⟩
        | .ok bytes => sendFrames options link rest (link.send bytes.length s) := rfl

def step (options : ServeOptions) (link : BulkChannel σ ε) (s : Serving σ) :
    ServeAction ε → Option (Serving σ)
  | .revision bytes transferSeq =>
    match s.sending with
    | .away =>
      some (sendFrames options link (framesOf options.chunkBytes bytes transferSeq) s.channel)
    | .draining _ _ _ => none
  | .resume =>
    match s.sending with
    | .draining (.ok bytes) rest true =>
      some (sendFrames options link rest (link.send bytes.length s.channel))
    | .draining (.error _) _ true => some { s with sending := .away }
    | _ => none
  | .channel event =>
    (link.next s.channel event).map fun (channel, releases) =>
      match s.sending with
      | .away => ⟨channel, .away⟩
      | .draining frame rest released => ⟨channel, .draining frame rest (released || releases)⟩

/-- No more than the high-water mark and a frame. -/
def Bounded (options : ServeOptions) (link : BulkChannel σ ε) (s : Serving σ) : Prop :=
  link.undrained s.channel ≤ options.highWaterBytes + options.chunkBytes + chunkHeaderBytes

/-! ## Frames -/

/-- A frame holds at most a chunk. -/
def Small (options : ServeOptions) (frame : Except Failure Bytes) : Prop :=
  ∀ bytes, frame = .ok bytes → bytes.length ≤ options.chunkBytes + chunkHeaderBytes

theorem length_encodeChunkFrame {frame : ChunkFrame} {bytes : Bytes}
    (h : encodeChunkFrame frame = .ok bytes) :
    bytes.length = chunkHeaderBytes + frame.payload.length := by
  obtain ⟨_, -, h⟩ := bind_eq_ok.mp h
  obtain ⟨_, -, h⟩ := bind_eq_ok.mp h
  cases h
  simp [uint32Bytes, chunkHeaderBytes]
  omega

theorem small_framesOf (options : ServeOptions) (bytes : Bytes) (transferSeq : Nat) :
    ∀ frame ∈ framesOf options.chunkBytes bytes transferSeq, Small options frame := by
  unfold framesOf
  split
  · nofun
  · intro frame hframe encoded hok
    obtain ⟨chunkIndex, -, rfl⟩ := List.mem_map.mp hframe
    have hlength : encoded.length =
        chunkHeaderBytes + (chunkPayload bytes options.chunkBytes chunkIndex).length :=
      length_encodeChunkFrame hok
    have htake : (chunkPayload bytes options.chunkBytes chunkIndex).length ≤ options.chunkBytes :=
      List.length_take_le _ _
    omega

/-! ## The memory channel -/

section Memory

variable {options : ServeOptions} {lowWaterBytes : Nat} {s t : Serving MemoryChannel}

/-- The channel is not over the bound, and not over the mark when the sender may go on. -/
structure Throttled (options : ServeOptions) (s : Serving MemoryChannel) : Prop where
  bounded : s.channel.bufferedAmount ≤
    options.highWaterBytes + options.chunkBytes + chunkHeaderBytes
  waits : ∀ frame rest released, s.sending = .draining frame rest released →
    (∀ f ∈ frame :: rest, Small options f) ∧
      (released = true → s.channel.bufferedAmount ≤ options.highWaterBytes)

theorem bufferedAmount_send (size : Nat) (channel : MemoryChannel) :
    (channel.send size).bufferedAmount ≤ channel.bufferedAmount + size := by
  unfold MemoryChannel.send
  split
  · exact Nat.le_add_right _ _
  · simp [MemoryChannel.bufferedAmount]

/-- A frame is sent only below the mark. -/
theorem throttled_sendFrames (hlow : lowWaterBytes ≤ options.highWaterBytes)
    {frames : List (Except Failure Bytes)} (hframes : ∀ f ∈ frames, Small options f)
    {channel : MemoryChannel} (hbounded : channel.bufferedAmount ≤
      options.highWaterBytes + options.chunkBytes + chunkHeaderBytes) :
    Throttled options
      (sendFrames options (MemoryChannel.channel lowWaterBytes) frames channel) := by
  induction frames generalizing channel with
  | nil => exact ⟨hbounded, nofun⟩
  | cons frame rest ih =>
    rw [sendFrames_cons]
    split
    · rename_i hhigh
      refine ⟨hbounded, ?_⟩
      rintro frame' rest' released heq
      cases heq
      refine ⟨hframes, fun hreleased => ?_⟩
      have hle : channel.bufferedAmount ≤ lowWaterBytes := of_decide_eq_true hreleased
      exact Nat.le_trans hle hlow
    · rename_i hhigh
      have hbelow : channel.bufferedAmount ≤ options.highWaterBytes := Nat.le_of_not_lt hhigh
      cases frame with
      | error e => exact ⟨hbounded, nofun⟩
      | ok bytes =>
        refine ih (fun f hf => hframes f (List.mem_cons_of_mem _ hf)) ?_
        have hsmall := hframes _ List.mem_cons_self bytes rfl
        have hsend := bufferedAmount_send bytes.length channel
        show (channel.send bytes.length).bufferedAmount ≤ _
        omega

theorem throttled_step (hlow : lowWaterBytes ≤ options.highWaterBytes) (hs : Throttled options s)
    {action : ServeAction MemoryEvent}
    (h : step options (MemoryChannel.channel lowWaterBytes) s action = some t) :
    Throttled options t := by
  cases action with
  | revision bytes transferSeq =>
    rw [step] at h
    split at h
    · cases h
      exact throttled_sendFrames hlow (small_framesOf options bytes transferSeq) hs.bounded
    · cases h
  | resume =>
    rw [step] at h
    split at h
    · rename_i bytes rest hsending
      cases h
      obtain ⟨hsmall, hbelow⟩ := hs.waits _ _ _ hsending
      refine throttled_sendFrames hlow (fun f hf => hsmall f (List.mem_cons_of_mem _ hf)) ?_
      have hframe := hsmall _ List.mem_cons_self bytes rfl
      have hsend := bufferedAmount_send bytes.length s.channel
      have hmark := hbelow rfl
      show (s.channel.send bytes.length).bufferedAmount ≤ _
      omega
    · cases h
      exact ⟨hs.bounded, nofun⟩
    · cases h
  | channel event =>
    obtain ⟨⟨channel, releases⟩, hnext, rfl⟩ := Option.map_eq_some_iff.mp h
    have hle : channel.bufferedAmount ≤ s.channel.bufferedAmount ∧
        (releases = true → channel.bufferedAmount ≤ lowWaterBytes) := by
      cases event with
      | deliver =>
        change s.channel.next lowWaterBytes .deliver = _ at hnext
        unfold MemoryChannel.next at hnext
        cases hqueue : s.channel.queue with
        | nil =>
          rw [hqueue] at hnext
          cases hnext
        | cons size queue =>
          rw [hqueue] at hnext
          cases hnext
          refine ⟨?_, fun hreleases => of_decide_eq_true hreleases⟩
          show queue.sum ≤ s.channel.queue.sum
          rw [hqueue, List.sum_cons]
          exact Nat.le_add_left _ _
      | close =>
        cases hnext
        exact ⟨Nat.le_refl _, nofun⟩
    obtain ⟨hle, hreleases⟩ := hle
    cases hsending : s.sending with
    | away => exact ⟨Nat.le_trans hle hs.bounded, nofun⟩
    | draining frame rest released =>
      refine ⟨Nat.le_trans hle hs.bounded, ?_⟩
      rintro frame' rest' released' heq
      cases heq
      obtain ⟨hsmall, hbelow⟩ := hs.waits _ _ _ hsending
      refine ⟨hsmall, fun hreleased => ?_⟩
      rcases Bool.or_eq_true_iff.mp hreleased with hreleased | hreleased
      · exact Nat.le_trans hle (hbelow hreleased)
      · exact Nat.le_trans (hreleases hreleased) hlow

end Memory

/-! ## The channel of the hub -/

section Hub

variable {options : ServeOptions} {s t : Serving HubChannel}

/-- What frames come to, up to the first that cannot be encoded. -/
def total : List (Except Failure Bytes) → Nat
  | .ok bytes :: rest => bytes.length + total rest
  | _ => 0

/-- Nothing is sent when the channel is closed, or waits when the last report is over the mark. -/
def held (options : ServeOptions) (channel : HubChannel) : Bool :=
  channel.closed || options.highWaterBytes < channel.buffered

/-- What the sender hands over until it waits again. -/
def handsOver (options : ServeOptions) (s : Serving HubChannel) : ServeAction HubEvent → Nat
  | .revision bytes transferSeq =>
    match s.sending with
    | .away =>
      if held options s.channel then 0 else total (framesOf options.chunkBytes bytes transferSeq)
    | .draining _ _ _ => 0
  | .resume =>
    match s.sending with
    | .draining (.ok bytes) rest true =>
      if s.channel.closed then 0
      else bytes.length + if held options s.channel then 0 else total rest
    | _ => 0
  | .channel _ => 0

/-- What has not drained and what is handed over now are within the bound. -/
def Fits (options : ServeOptions) (s : Serving HubChannel) (action : ServeAction HubEvent) : Prop :=
  s.channel.undrained + handsOver options s action ≤
    options.highWaterBytes + options.chunkBytes + chunkHeaderBytes

theorem held_send (options : ServeOptions) (size : Nat) (channel : HubChannel) :
    held options (channel.send size) = held options channel := by
  unfold HubChannel.send
  split <;> rfl

theorem undrained_send (size : Nat) (channel : HubChannel) :
    (channel.send size).undrained = channel.undrained + if channel.closed then 0 else size := by
  unfold HubChannel.send
  split <;> rfl

/-- No report comes while the sender does not wait. -/
theorem undrained_sendFrames (options : ServeOptions) (frames : List (Except Failure Bytes))
    (channel : HubChannel) :
    (sendFrames options HubChannel.channel frames channel).channel.undrained =
      channel.undrained + if held options channel then 0 else total frames := by
  induction frames generalizing channel with
  | nil => simp [sendFrames, total]
  | cons frame rest ih =>
    rw [sendFrames_cons]
    by_cases hhigh : options.highWaterBytes < channel.buffered
    · have hheld : held options channel = true := by simp [held, hhigh]
      rw [if_pos (show options.highWaterBytes < HubChannel.channel.bufferedAmount channel from hhigh),
        hheld]
      rfl
    · rw [if_neg (show ¬ options.highWaterBytes < HubChannel.channel.bufferedAmount channel from hhigh)]
      cases frame with
      | error e => simp [total]
      | ok bytes =>
        refine (ih _).trans ?_
        show (channel.send bytes.length).undrained +
          (if held options (channel.send bytes.length) then 0 else total rest) = _
        rw [held_send, undrained_send]
        cases hclosed : channel.closed with
        | true => simp [hclosed, held]
        | false => simp [hclosed, held, hhigh, total, Nat.add_assoc]

theorem undrained_step {action : ServeAction HubEvent}
    (h : step options HubChannel.channel s action = some t) :
    t.channel.undrained ≤ s.channel.undrained + handsOver options s action ∧
      ((∀ event, action ≠ .channel event) →
        t.channel.undrained = s.channel.undrained + handsOver options s action) := by
  cases action with
  | revision bytes transferSeq =>
    rw [step] at h
    cases hsending : s.sending with
    | draining =>
      rw [hsending] at h
      cases h
    | away =>
      rw [hsending] at h
      cases h
      have heq := undrained_sendFrames options (framesOf options.chunkBytes bytes transferSeq)
        s.channel
      rw [handsOver, hsending]
      exact ⟨heq.le, fun _ => heq⟩
  | resume =>
    rw [step] at h
    split at h
    · rename_i bytes rest hsending
      cases h
      have heq := undrained_sendFrames options rest (s.channel.send bytes.length)
      have hall : (s.channel.send bytes.length).undrained +
          (if held options (s.channel.send bytes.length) then 0 else total rest) =
          s.channel.undrained + handsOver options s .resume := by
        rw [held_send, undrained_send, handsOver, hsending]
        cases hclosed : s.channel.closed with
        | true => simp [hclosed, held]
        | false => simp [Nat.add_assoc]
      exact ⟨(heq.trans hall).le, fun _ => heq.trans hall⟩
    · rename_i e rest hsending
      cases h
      rw [handsOver, hsending]
      exact ⟨Nat.le_refl _, fun _ => rfl⟩
    · cases h
  | channel event =>
    refine ⟨?_, fun hnot => absurd rfl (hnot event)⟩
    obtain ⟨⟨channel, releases⟩, hnext, rfl⟩ := Option.map_eq_some_iff.mp h
    have hle : channel.undrained ≤ s.channel.undrained := by
      change s.channel.next event = _ at hnext
      cases event with
      | drain size =>
        rw [HubChannel.next] at hnext
        split at hnext
        · cases hnext
          exact Nat.sub_le _ _
        · cases hnext
      | reportBuffered | close =>
        cases hnext
        exact Nat.le_refl _
    cases s.sending <;> exact hle

theorem fits_of_bounded (hs : s.Bounded options HubChannel.channel) {action : ServeAction HubEvent}
    (h : ∀ t, step options HubChannel.channel s action = some t →
      t.Bounded options HubChannel.channel) : Fits options s action := by
  cases hstep : step options HubChannel.channel s action with
  | some t =>
    have ht := h t hstep
    by_cases hevent : ∃ event, action = .channel event
    · obtain ⟨event, rfl⟩ := hevent
      exact hs
    · have heq := (undrained_step hstep).2 fun event heq => hevent ⟨event, heq⟩
      rw [Fits, ← heq]
      exact ht
  | none =>
    have hnone : handsOver options s action = 0 := by
      cases action with
      | revision bytes transferSeq =>
        rw [step] at hstep
        split at hstep
        · cases hstep
        · rename_i hsending
          rw [handsOver, hsending]
      | resume =>
        rw [step] at hstep
        split at hstep
        · cases hstep
        · cases hstep
        · rename_i hother _
          rw [handsOver]
          split
          · rename_i bytes rest hsending
            exact absurd hsending (hother bytes rest)
          · rfl
      | channel => rfl
    rw [Fits, hnone]
    exact hs

end Hub

/-- Over the memory channel what has not drained is bounded; over that of the hub as long as what is
left of a revision fits when the sender goes on with it. -/
theorem bounded_iff_fits (options : ServeOptions) (lowWaterBytes : Nat)
    (hlow : lowWaterBytes ≤ options.highWaterBytes) :
    (∀ actions s, play (step options (MemoryChannel.channel lowWaterBytes))
        ⟨MemoryChannel.new, .away⟩ actions = some s →
      s.Bounded options (MemoryChannel.channel lowWaterBytes)) ∧
    ∀ actions, Meets (step options HubChannel.channel)
        (fun s action => ∀ t, step options HubChannel.channel s action = some t →
          t.Bounded options HubChannel.channel) ⟨HubChannel.new, .away⟩ actions ↔
      Meets (step options HubChannel.channel) (Fits options) ⟨HubChannel.new, .away⟩ actions := by
  constructor
  · intro actions s h
    have hstart : Throttled options ⟨MemoryChannel.new, .away⟩ := ⟨Nat.zero_le _, nofun⟩
    exact (play_keeps (fun _ _ _ _ hs h => throttled_step hlow hs h) h hstart).bounded
  · intro actions
    refine meets_congr (P := Bounded options HubChannel.channel) (fun s action hs => ?_)
      (fun s action t hs hfits h => ?_) (Nat.zero_le _)
    · refine ⟨fits_of_bounded hs, fun hfits t h => ?_⟩
      exact Nat.le_trans (undrained_step h).1 hfits
    · exact Nat.le_trans (undrained_step h).1 hfits

/-- With the marks of a test. -/
theorem bounded_iff_fits_small :
    (∀ actions s, play (step ⟨512, 2048⟩ (MemoryChannel.channel 1024))
        ⟨MemoryChannel.new, .away⟩ actions = some s →
      s.Bounded ⟨512, 2048⟩ (MemoryChannel.channel 1024)) ∧
    ∀ actions, Meets (step ⟨512, 2048⟩ HubChannel.channel)
        (fun s action => ∀ t, step ⟨512, 2048⟩ HubChannel.channel s action = some t →
          t.Bounded ⟨512, 2048⟩ HubChannel.channel) ⟨HubChannel.new, .away⟩ actions ↔
      Meets (step ⟨512, 2048⟩ HubChannel.channel) (Fits ⟨512, 2048⟩) ⟨HubChannel.new, .away⟩
        actions :=
  bounded_iff_fits ⟨512, 2048⟩ 1024 (by decide)

theorem sum_le_total {l : List Nat} {f : Nat → Except Failure Bytes} {size : Nat → Nat}
    (h : ∀ i ∈ l, ∃ bytes, f i = .ok bytes ∧ size i ≤ bytes.length) :
    (l.map size).sum ≤ total (l.map f) := by
  induction l with
  | nil => exact Nat.le_refl _
  | cons i rest ih =>
    obtain ⟨bytes, hok, hsize⟩ := h i List.mem_cons_self
    rw [List.map_cons, List.sum_cons, List.map_cons, hok, total]
    exact Nat.add_le_add hsize (ih fun j hj => h j (List.mem_cons_of_mem _ hj))

/-- The frames of a revision are no less than its bytes. -/
theorem length_le_total {bytes : Bytes} {chunkBytes transferSeq totalChunks : Nat}
    (hcount : chunkCountFor bytes.length chunkBytes = .ok totalChunks)
    (hseq : transferSeq < 2 ^ 32) (htotal : totalChunks < 2 ^ 32) :
    bytes.length ≤ total (framesOf chunkBytes bytes transferSeq) := by
  obtain ⟨-, -, hle⟩ := chunkCountFor_ok hcount
  rw [← sum_chunkPayload hle, framesOf, hcount]
  apply sum_le_total
  intro i hi
  have hi := List.mem_range.mp hi
  obtain ⟨encoded, hok⟩ : ∃ encoded,
      encodeChunkFrame ⟨transferSeq, i, chunkPayload bytes chunkBytes i⟩ = .ok encoded :=
    exists_encodeChunkFrame hseq (Nat.lt_trans hi htotal)
  have hlength : encoded.length = chunkHeaderBytes + (chunkPayload bytes chunkBytes i).length :=
    length_encodeChunkFrame hok
  exact ⟨encoded, hok, by omega⟩

/-- A revision of two megabytes. -/
def large : Bytes := List.replicate 2000000 0

/-- With the default chunks and a mark of 1 MiB all of it is handed over at once. -/
theorem large_unbounded : ¬ Meets (step ⟨defaultChunkBytes, 1024 * 1024⟩ HubChannel.channel)
    (fun s action => ∀ t, step ⟨defaultChunkBytes, 1024 * 1024⟩ HubChannel.channel s action = some t →
      t.Bounded ⟨defaultChunkBytes, 1024 * 1024⟩ HubChannel.channel)
    ⟨HubChannel.new, .away⟩ [.revision large 1] := by
  intro hmeets
  have hfits : Fits ⟨defaultChunkBytes, 1024 * 1024⟩ ⟨HubChannel.new, .away⟩ (.revision large 1) :=
    fits_of_bounded (Nat.zero_le _) hmeets.1
  have hcount : chunkCountFor large.length defaultChunkBytes = .ok 31 := by
    rw [large, List.length_replicate]
    rfl
  have hlength : large.length ≤ total (framesOf defaultChunkBytes large 1) :=
    length_le_total hcount (by omega) (by omega)
  have hheld : held ⟨defaultChunkBytes, 1024 * 1024⟩ HubChannel.new = false := by decide
  have hchunk : defaultChunkBytes = 65536 := rfl
  have hheader : chunkHeaderBytes = 8 := rfl
  simp only [Fits, handsOver, hheld, Bool.false_eq_true, if_false] at hfits
  rw [large, List.length_replicate, ← large] at hlength
  omega

end Serving

end PassVault
