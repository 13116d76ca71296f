import PassVault.Core.Framing

/-!
# Frames as views

What the bulk channel hands over is a `Uint8Array`, a window of a buffer that may be larger. The
decoder reads both numbers through a `DataView` over that window, and the payload it returns is a
window of the same buffer.
-/

namespace PassVault

/-- A `Uint8Array` over its buffer. -/
structure ByteView where
  buffer : Bytes
  byteOffset : Nat
  byteLength : Nat
  within : byteOffset + byteLength ≤ buffer.length

namespace ByteView

/-- The bytes that the view shows. -/
def contents (view : ByteView) : Bytes := (view.buffer.drop view.byteOffset).take view.byteLength

def byteAt (view : ByteView) (index : Nat) : UInt8 := view.buffer.getD (view.byteOffset + index) 0

/-- `getUint32(index, false)` of a `DataView` over the same window. -/
def getUint32 (view : ByteView) (index : Nat) : Except Failure Nat :=
  if index + 4 ≤ view.byteLength then
    .ok (uint32Of (view.byteAt index) (view.byteAt (index + 1)) (view.byteAt (index + 2))
      (view.byteAt (index + 3)))
  else .error (.error "Offset is outside the bounds of the DataView")

/-- `subarray(start)`: no bytes are copied, and a start past the end gives an empty view. -/
def subarray (view : ByteView) (start : Nat) : ByteView where
  buffer := view.buffer
  byteOffset := view.byteOffset + min start view.byteLength
  byteLength := view.byteLength - start
  within := by
    have := view.within
    omega

/-- A view of a whole buffer. -/
def ofBytes (bytes : Bytes) : ByteView := ⟨bytes, 0, bytes.length, by simp⟩

@[simp] theorem contents_ofBytes (bytes : Bytes) : (ofBytes bytes).contents = bytes := by
  simp [contents, ofBytes]

@[simp] theorem length_contents (view : ByteView) : view.contents.length = view.byteLength := by
  have := view.within
  simp only [contents, List.length_take, List.length_drop]
  omega

theorem contents_getElem? (view : ByteView) {index : Nat} (h : index < view.byteLength) :
    view.contents[index]? = some (view.byteAt index) := by
  have hbuffer := view.within
  have hindex : view.byteOffset + index < view.buffer.length := by omega
  simp [contents, byteAt, h, List.getElem?_drop, hindex]

theorem contents_subarray (view : ByteView) {start : Nat} (h : start ≤ view.byteLength) :
    (view.subarray start).contents = view.contents.drop start := by
  simp [contents, subarray, List.drop_take, Nat.min_eq_left h, List.drop_drop]

theorem byteAt_append {view : ByteView} (front : Bytes) {rest : Bytes} {byte : UInt8}
    (h : view.contents = front ++ byte :: rest) : view.byteAt front.length = byte := by
  have hlength := view.length_contents
  rw [h, List.length_append, List.length_cons] at hlength
  have hlt : front.length < view.byteLength := by omega
  have hread := view.contents_getElem? hlt
  rw [h, List.getElem?_append_right (by omega), Nat.sub_self] at hread
  exact (Option.some.inj hread).symm

/-- A number is read where its four bytes stand. -/
theorem getUint32_append {view : ByteView} (front : Bytes) {rest : Bytes} {a b c d : UInt8}
    (h : view.contents = front ++ a :: b :: c :: d :: rest) :
    view.getUint32 front.length = .ok (uint32Of a b c d) := by
  have hlength := view.length_contents
  rw [h] at hlength
  simp only [List.length_append, List.length_cons] at hlength
  have ha := byteAt_append front h
  have hb := byteAt_append (front ++ [a]) (by simpa using h)
  have hc := byteAt_append (front ++ [a, b]) (by simpa using h)
  have hd := byteAt_append (front ++ [a, b, c]) (by simpa using h)
  simp only [List.length_append, List.length_cons, List.length_nil] at hb hc hd
  rw [getUint32, if_pos (by omega), ha, hb, hc, hd]

end ByteView

/-- A `ChunkFrame` whose payload is still a view of the transport's buffer. -/
structure ViewedFrame where
  transferSeq : Nat
  chunkIndex : Nat
  payload : ByteView

def ViewedFrame.frame (viewed : ViewedFrame) : ChunkFrame :=
  ⟨viewed.transferSeq, viewed.chunkIndex, viewed.payload.contents⟩

/-- `decodeChunkFrame` on the window that the channel hands over. -/
def decodeFrameView (frame : ByteView) : Except Failure (Option ViewedFrame) :=
  if frame.byteLength < chunkHeaderBytes then .ok none
  else do
    let transferSeq ← frame.getUint32 0
    let chunkIndex ← frame.getUint32 4
    return some ⟨transferSeq, chunkIndex, frame.subarray chunkHeaderBytes⟩

theorem uint32Of_lt (a b c d : UInt8) : uint32Of a b c d < 2 ^ 32 := by
  have ha := a.toNat_lt
  have hb := b.toNat_lt
  have hc := c.toNat_lt
  have hd := d.toNat_lt
  unfold uint32Of
  omega

/-- The four bytes of a number that four bytes stand for. -/
theorem uint32Bytes_of (a b c d : UInt8) : uint32Bytes (uint32Of a b c d) = [a, b, c, d] := by
  have ha := a.toNat_lt
  have hb := b.toNat_lt
  have hc := c.toNat_lt
  have hd := d.toNat_lt
  unfold uint32Bytes uint32Of
  simp only [List.cons.injEq, ← UInt8.toNat_inj, UInt8.toNat_ofNat', and_true]
  omega

theorem encodeChunkFrame_of_lt {frame : ChunkFrame} (hseq : frame.transferSeq < 2 ^ 32)
    (hindex : frame.chunkIndex < 2 ^ 32) :
    encodeChunkFrame frame =
      .ok (uint32Bytes frame.transferSeq ++ (uint32Bytes frame.chunkIndex ++ frame.payload)) := by
  have hseq : frame.transferSeq ≤ maxUint32 := by
    unfold maxUint32
    omega
  have hindex : frame.chunkIndex ≤ maxUint32 := by
    unfold maxUint32
    omega
  simp only [encodeChunkFrame, hseq, hindex, decide_true, assert_true]
  rfl

/-- What `decodeChunkFrame` makes of a frame is what was encoded. -/
theorem encode_decodeChunkFrame {bytes : Bytes} {frame : ChunkFrame}
    (h : decodeChunkFrame bytes = some frame) :
    frame.transferSeq < 2 ^ 32 ∧ frame.chunkIndex < 2 ^ 32 ∧ encodeChunkFrame frame = .ok bytes := by
  unfold decodeChunkFrame at h
  split at h
  · rename_i a b c d e f g h' payload
    obtain rfl := Option.some.inj h
    have hseq := uint32Of_lt a b c d
    have hindex := uint32Of_lt e f g h'
    constructor
    · exact hseq
    · constructor
      · exact hindex
      · rw [encodeChunkFrame_of_lt hseq hindex, uint32Bytes_of, uint32Bytes_of]
        rfl
  · cases h

theorem eight_bytes {bytes : Bytes} (h : chunkHeaderBytes ≤ bytes.length) :
    ∃ a b c d e f g i payload, bytes = a :: b :: c :: d :: e :: f :: g :: i :: payload := by
  unfold chunkHeaderBytes at h
  match bytes, h with
  | a :: b :: c :: d :: e :: f :: g :: i :: payload, _ =>
    exact ⟨a, b, c, d, e, f, g, i, payload, rfl⟩

theorem decodeFrameView_short {view : ByteView} (h : view.byteLength < chunkHeaderBytes) :
    decodeFrameView view = .ok none := by
  rw [decodeFrameView, if_pos h]

/-- A frame with a whole header: nothing but the bytes that the view shows decides what is
decoded, whatever else its buffer holds. -/
theorem decodeFrameView_long {view : ByteView} (h : chunkHeaderBytes ≤ view.byteLength) :
    ∃ viewed, decodeFrameView view = .ok (some viewed) ∧
      decodeChunkFrame view.contents = some viewed.frame := by
  have hlength := view.length_contents
  obtain ⟨a, b, c, d, e, f, g, i, payload, hcontents⟩ := eight_bytes (hlength ▸ h)
  have hseq := ByteView.getUint32_append [] hcontents
  have hindex := ByteView.getUint32_append [a, b, c, d] hcontents
  have hpayload := view.contents_subarray h
  rw [hcontents] at hpayload
  simp only [List.length_cons, List.length_nil] at hseq hindex
  rw [decodeFrameView, if_neg (by omega), hseq, hindex, hcontents]
  constructor
  · constructor
    · rfl
    · rw [ViewedFrame.frame, hpayload]
      rfl

/-- Chunk frames and byte strings of at least eight bytes correspond one to one. -/
theorem chunk_frames_correspond :
    (∀ frame : ChunkFrame, frame.transferSeq < 2 ^ 32 → frame.chunkIndex < 2 ^ 32 →
      ∃ bytes, encodeChunkFrame frame = .ok bytes ∧
        ∀ view : ByteView, view.contents = bytes →
          (decodeFrameView view).map (·.map ViewedFrame.frame) = .ok (some frame)) ∧
    (∀ view : ByteView, 8 ≤ view.byteLength →
      ∃ viewed, decodeFrameView view = .ok (some viewed) ∧ viewed.transferSeq < 2 ^ 32 ∧
        viewed.chunkIndex < 2 ^ 32 ∧ encodeChunkFrame viewed.frame = .ok view.contents) ∧
    ∀ view : ByteView, decodeFrameView view = .ok none ↔ view.byteLength < 8 := by
  constructor
  · intro frame hseq hindex
    have hencode := encodeChunkFrame_of_lt hseq hindex
    apply Exists.intro
    constructor
    · exact hencode
    · intro view hview
      have hdecode := decode_encodeChunkFrame hencode
      rw [← hview] at hdecode
      have hlength := view.length_contents
      have hlong : chunkHeaderBytes ≤ view.byteLength := by
        rw [hview] at hlength
        simp only [uint32Bytes, List.length_append, List.length_cons, List.length_nil] at hlength
        unfold chunkHeaderBytes
        omega
      obtain ⟨viewed, hviewed, hframe⟩ := decodeFrameView_long hlong
      rw [hdecode] at hframe
      rw [hviewed, Option.some.inj hframe]
      rfl
  · constructor
    · intro view hlong
      obtain ⟨viewed, hviewed, hframe⟩ := decodeFrameView_long hlong
      have hencode := encode_decodeChunkFrame hframe
      exact ⟨viewed, hviewed, hencode⟩
    · intro view
      constructor
      · intro hnone
        apply Nat.lt_of_not_le
        intro hlong
        have hlong : chunkHeaderBytes ≤ view.byteLength := hlong
        obtain ⟨viewed, hviewed, -⟩ := decodeFrameView_long hlong
        rw [hnone] at hviewed
        cases hviewed
      · exact decodeFrameView_short

theorem chunk_frames_correspond_top :
    ∃ bytes, encodeChunkFrame ⟨0xffffffff, 0xfffffffe, [9]⟩ = .ok bytes ∧
      ∀ view : ByteView, view.contents = bytes →
        (decodeFrameView view).map (·.map ViewedFrame.frame) =
          .ok (some ⟨0xffffffff, 0xfffffffe, [9]⟩) :=
  chunk_frames_correspond.1 ⟨0xffffffff, 0xfffffffe, [9]⟩ (by decide) (by decide)

end PassVault
