import Mathlib.Algebra.GroupWithZero.Nat
import PassVault.Core.Model

/-!
# Binary framing for vault bytes

`packages/core/src/framing.ts`: the frames of the bulk channel and the assembler that puts the
chunks of one inbound transfer together.
-/

namespace PassVault

def chunkHeaderBytes : Nat := 8

/-- 64 KiB of payload. -/
def defaultChunkBytes : Nat := 64 * 1024

def maxUint32 : Nat := 0xffffffff

structure ChunkFrame where
  transferSeq : Nat
  chunkIndex : Nat
  payload : Bytes
deriving DecidableEq, Repr

/-- `DataView.setUint32`, big-endian. -/
def uint32Bytes (n : Nat) : Bytes :=
  [UInt8.ofNat (n / 0x1000000), UInt8.ofNat (n / 0x10000), UInt8.ofNat (n / 0x100), UInt8.ofNat n]

/-- `DataView.getUint32`, big-endian. -/
def uint32Of (a b c d : UInt8) : Nat :=
  a.toNat * 0x1000000 + b.toNat * 0x10000 + c.toNat * 0x100 + d.toNat

def encodeChunkFrame (frame : ChunkFrame) : Except Failure Bytes := do
  assert (frame.transferSeq ≤ maxUint32) "transferSeq must fit in uint32"
  assert (frame.chunkIndex ≤ maxUint32) "chunkIndex must fit in uint32"
  return uint32Bytes frame.transferSeq ++ (uint32Bytes frame.chunkIndex ++ frame.payload)

/-- Decode a frame from the bulk channel; `none` for a short one. -/
def decodeChunkFrame : Bytes → Option ChunkFrame
  | a :: b :: c :: d :: e :: f :: g :: h :: payload =>
    some ⟨uint32Of a b c d, uint32Of e f g h, payload⟩
  | _ => none

theorem uint32Of_bytes {n : Nat} (h : n ≤ maxUint32) :
    uint32Of (UInt8.ofNat (n / 0x1000000)) (UInt8.ofNat (n / 0x10000)) (UInt8.ofNat (n / 0x100))
      (UInt8.ofNat n) = n := by
  unfold uint32Of
  unfold maxUint32 at h
  simp only [UInt8.toNat_ofNat']
  omega

theorem decode_encodeChunkFrame {frame : ChunkFrame} {bytes : Bytes}
    (h : encodeChunkFrame frame = .ok bytes) : decodeChunkFrame bytes = some frame := by
  unfold encodeChunkFrame at h
  obtain ⟨_, hseq, h⟩ := bind_eq_ok.mp h
  obtain ⟨_, hindex, h⟩ := bind_eq_ok.mp h
  cases h
  have hseq : frame.transferSeq ≤ maxUint32 := by simpa using assert_eq_ok.mp hseq
  have hindex : frame.chunkIndex ≤ maxUint32 := by simpa using assert_eq_ok.mp hindex
  simp only [uint32Bytes, List.cons_append, List.nil_append, decodeChunkFrame]
  rw [uint32Of_bytes hseq, uint32Of_bytes hindex]

def chunkCountFor (sizeBytes chunkBytes : Nat) : Except Failure Nat := do
  assert (0 < chunkBytes) "chunk size must be positive"
  -- An empty revision still needs one frame.
  return max 1 ((sizeBytes + chunkBytes - 1) / chunkBytes)

/-- Reassembles the chunks of one inbound transfer. -/
structure ChunkAssembler where
  totalChunks : Nat
  expectedSizeBytes : Nat
  chunks : List (Nat × Bytes)
  received : Nat
deriving DecidableEq, Repr

namespace ChunkAssembler

def create (totalChunks expectedSizeBytes : Nat) : Except Failure ChunkAssembler := do
  assert (0 < totalChunks) "a transfer must have at least one chunk"
  return ⟨totalChunks, expectedSizeBytes, [], 0⟩

def chunk (assembler : ChunkAssembler) (index : Nat) : Option Bytes :=
  (assembler.chunks.find? (·.1 = index)).map (·.2)

/-- `false` when the frame is out of range or would exceed the declared size. -/
def accept (assembler : ChunkAssembler) (frame : ChunkFrame) : ChunkAssembler × Bool :=
  if assembler.totalChunks ≤ frame.chunkIndex then (assembler, false)
  else if (assembler.chunk frame.chunkIndex).isSome then (assembler, true)
  else if assembler.expectedSizeBytes < assembler.received + frame.payload.length then
    (assembler, false)
  else
    ({ assembler with
        chunks := assembler.chunks ++ [(frame.chunkIndex, frame.payload)]
        received := assembler.received + frame.payload.length }, true)

def isComplete (assembler : ChunkAssembler) : Bool :=
  assembler.chunks.length = assembler.totalChunks ∧
    assembler.received = assembler.expectedSizeBytes

/-- The chunks in order, once the transfer is complete. -/
def assemble (assembler : ChunkAssembler) : Bytes :=
  (List.range assembler.totalChunks).flatMap fun index => (assembler.chunk index).getD []

end ChunkAssembler

end PassVault
