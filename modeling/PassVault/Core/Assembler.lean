import PassVault.Core.Transfer
import PassVault.Lib.Table

/-!
# The assembler under any frames

`ChunkAssembler` of `packages/core/src/framing.ts` with its assertions, fed with frames that its
peer makes up: whatever their indices and payloads, the counter is what is stored, the first
payload that is accepted for an index stays, and a complete transfer is copied out without running
over its buffer.
-/

namespace PassVault

namespace ChunkAssembler

def receivedBytes (assembler : ChunkAssembler) : Nat := assembler.received

def missingIndices (assembler : ChunkAssembler) : List Nat :=
  (List.range assembler.totalChunks).filter fun index => (assembler.chunk index).isNone

def acceptAll : List ChunkFrame → ChunkAssembler → ChunkAssembler
  | [], assembler => assembler
  | frame :: rest, assembler => acceptAll rest (assembler.accept frame).1

/-- The payload of the first frame with this index that is accepted. -/
def firstAccepted (index : Nat) : List ChunkFrame → ChunkAssembler → Option Bytes
  | [], _ => none
  | frame :: rest, assembler =>
    if frame.chunkIndex = index ∧ (assembler.accept frame).2 = true then some frame.payload
    else firstAccepted index rest (assembler.accept frame).1

/-! ## Assertions -/

/-- The loop of `assemble`: `output.set(chunk, offset)` for each chunk in order. -/
def setChunks (assembler : ChunkAssembler) : List Nat → Bytes → Except Failure Bytes
  | [], output => .ok output
  | index :: rest, output => do
    assert (assembler.chunk index).isSome ("missing chunk " ++ toString index)
    let chunk := (assembler.chunk index).getD []
    if assembler.expectedSizeBytes < output.length + chunk.length then
      throw (.error "offset is out of bounds")
    setChunks assembler rest (output ++ chunk)

/-- `assemble`, with its assertions. -/
def assembleOrThrow (assembler : ChunkAssembler) : Except Failure Bytes := do
  assert assembler.isComplete "cannot assemble an incomplete transfer"
  let output ← assembler.setChunks (List.range assembler.totalChunks) []
  return output ++ List.replicate (assembler.expectedSizeBytes - output.length) 0

/-- What holds of an assembler from its construction on. -/
structure WellFormed (assembler : ChunkAssembler) : Prop where
  nodup : (assembler.chunks.map (·.1)).Nodup
  range : ∀ chunk ∈ assembler.chunks, chunk.1 < assembler.totalChunks
  received : assembler.received = (assembler.chunks.map (·.2.length)).sum
  room : assembler.received ≤ assembler.expectedSizeBytes

theorem wellFormed_create {totalChunks expectedSizeBytes : Nat} {assembler : ChunkAssembler}
    (h : create totalChunks expectedSizeBytes = .ok assembler) : assembler.WellFormed := by
  obtain ⟨_, _, h⟩ := bind_eq_ok.mp h
  cases h
  exact ⟨by simp, by simp, rfl, Nat.zero_le _⟩

theorem chunk_eq_none {assembler : ChunkAssembler} {index : Nat}
    (h : ¬ (assembler.chunk index).isSome) : index ∉ assembler.chunks.map (·.1) := by
  simpa [chunk] using h

theorem WellFormed.accept {assembler after : ChunkAssembler} {frame : ChunkFrame} {accepted : Bool}
    (h : assembler.WellFormed) (haccept : assembler.accept frame = (after, accepted)) :
    after.WellFormed := by
  unfold ChunkAssembler.accept at haccept
  split at haccept
  · cases haccept
    exact h
  split at haccept
  · cases haccept
    exact h
  split at haccept
  · cases haccept
    exact h
  rename_i hrange hnew hroom
  cases haccept
  refine ⟨?_, ?_, ?_, Nat.not_lt.mp hroom⟩
  · simpa using List.Nodup.concat (chunk_eq_none hnew) h.nodup
  · intro chunk hchunk
    rcases List.mem_append.mp hchunk with hchunk | hchunk
    · exact h.range chunk hchunk
    · rw [List.mem_singleton.mp hchunk]
      exact Nat.not_le.mp hrange
  · simp [h.received]

/-- The chunks of a complete transfer are all there, and no longer than they should be. -/
theorem WellFormed.complete {assembler : ChunkAssembler} (h : assembler.WellFormed)
    (hcomplete : assembler.isComplete = true) :
    (∀ index < assembler.totalChunks, (assembler.chunk index).isSome = true) ∧
      assembler.assemble.length = assembler.expectedSizeBytes := by
  obtain ⟨hlength, hreceived⟩ := of_decide_eq_true hcomplete
  have hperm : (assembler.chunks.map (·.1)).Perm (List.range assembler.totalChunks) := by
    have hsub : assembler.chunks.map (·.1) ⊆ List.range assembler.totalChunks := by
      intro index hindex
      obtain ⟨chunk, hchunk, rfl⟩ := List.mem_map.mp hindex
      exact List.mem_range.mpr (h.range chunk hchunk)
    exact (List.subperm_of_subset h.nodup hsub).perm_of_length_le (by simp [hlength])
  have hchunk : ∀ index < assembler.totalChunks, (assembler.chunk index).isSome = true := by
    intro index hindex
    by_contra hnone
    exact chunk_eq_none hnone (hperm.mem_iff.mpr (List.mem_range.mpr hindex))
  refine ⟨hchunk, ?_⟩
  -- Both sides add up the lengths of the same chunks.
  have hlookup : ∀ chunk ∈ assembler.chunks, assembler.chunk chunk.1 = some chunk.2 := by
    intro chunk hmem
    let table : Table (Prod.fst : Nat × Bytes → Nat) := ⟨assembler.chunks, h.nodup⟩
    have hfind : assembler.chunks.find? (·.1 = chunk.1) = some chunk :=
      Table.find_of_mem (t := table) hmem
    rw [ChunkAssembler.chunk, hfind, Option.map_some]
  have hsum : (assembler.chunks.map (·.2.length)).sum =
      ((assembler.chunks.map (·.1)).map fun i => ((assembler.chunk i).getD []).length).sum := by
    rw [List.map_map]
    congr 1
    apply List.map_congr_left
    intro chunk hchunk
    simp [hlookup chunk hchunk]
  rw [assemble, List.length_flatMap, ← hreceived, h.received, hsum]
  exact (hperm.map _).sum_eq.symm

theorem setChunks_eq_ok {assembler : ChunkAssembler} {indices : List Nat} (output : Bytes)
    (hall : ∀ index ∈ indices, (assembler.chunk index).isSome = true)
    (hroom : output.length + (indices.flatMap fun i => (assembler.chunk i).getD []).length ≤
      assembler.expectedSizeBytes) :
    assembler.setChunks indices output =
      .ok (output ++ indices.flatMap fun i => (assembler.chunk i).getD []) := by
  induction indices generalizing output with
  | nil => simp [setChunks]
  | cons index rest ih =>
    rw [List.flatMap_cons, List.length_append] at hroom
    have hfits : ¬ assembler.expectedSizeBytes <
        output.length + ((assembler.chunk index).getD []).length := by omega
    rw [setChunks, hall index List.mem_cons_self, assert_true]
    simp only [hfits, if_false]
    rw [List.flatMap_cons, ← List.append_assoc]
    refine ih _ (fun i hi => hall i (List.mem_cons_of_mem _ hi)) ?_
    rw [List.length_append]
    omega

/-- A complete transfer is assembled, and nothing is thrown. -/
theorem WellFormed.assembleOrThrow {assembler : ChunkAssembler} (h : assembler.WellFormed)
    (hcomplete : assembler.isComplete = true) :
    assembler.assembleOrThrow = .ok assembler.assemble := by
  obtain ⟨hchunk, hlength⟩ := h.complete hcomplete
  have hset := setChunks_eq_ok []
    (fun index hindex => hchunk index (List.mem_range.mp hindex))
    (by simpa [assemble] using Nat.le_of_eq hlength)
  rw [ChunkAssembler.assembleOrThrow, hcomplete, assert_true]
  have hpad : assembler.expectedSizeBytes - assembler.assemble.length = 0 := by omega
  change (do
    let output ← assembler.setChunks (List.range assembler.totalChunks) []
    return output ++ List.replicate (assembler.expectedSizeBytes - output.length) 0) = _
  rw [hset, List.nil_append]
  change Except.ok (assembler.assemble ++
    List.replicate (assembler.expectedSizeBytes - assembler.assemble.length) 0) = _
  rw [hpad, List.replicate_zero, List.append_nil]

/-! ## One frame -/

variable {assembler : ChunkAssembler} {frame : ChunkFrame}

/-- What `accept` does with a frame. -/
theorem accept_cases (assembler : ChunkAssembler) (frame : ChunkFrame) :
    assembler.accept frame = (assembler, false) ∨
      (assembler.accept frame = (assembler, true) ∧
        (assembler.chunk frame.chunkIndex).isSome = true) ∨
      (frame.chunkIndex < assembler.totalChunks ∧ assembler.chunk frame.chunkIndex = none ∧
        assembler.received + frame.payload.length ≤ assembler.expectedSizeBytes ∧
        assembler.accept frame =
          ({ assembler with
              chunks := assembler.chunks ++ [(frame.chunkIndex, frame.payload)]
              received := assembler.received + frame.payload.length }, true)) := by
  unfold accept
  split
  · exact .inl rfl
  · rename_i hindex
    split
    · rename_i hstored
      exact .inr (.inl ⟨rfl, hstored⟩)
    · rename_i hnew
      split
      · exact .inl rfl
      · rename_i hroom
        exact .inr (.inr ⟨Nat.lt_of_not_le hindex, by simpa using hnew, Nat.le_of_not_lt hroom, rfl⟩)

theorem accept_sizes (assembler : ChunkAssembler) (frame : ChunkFrame) :
    (assembler.accept frame).1.totalChunks = assembler.totalChunks ∧
      (assembler.accept frame).1.expectedSizeBytes = assembler.expectedSizeBytes := by
  rcases accept_cases assembler frame with heq | ⟨heq, -⟩ | ⟨-, -, -, heq⟩ <;> rw [heq] <;>
    exact ⟨rfl, rfl⟩

theorem mem_of_chunk {index : Nat} (h : assembler.chunk index ≠ none) :
    index ∈ assembler.chunks.map (·.1) := by
  obtain ⟨payload, hpayload⟩ := Option.ne_none_iff_exists'.mp h
  obtain ⟨c, hc, -⟩ := Option.map_eq_some_iff.mp hpayload
  have hindex : c.1 = index := by simpa using List.find?_some hc
  exact hindex ▸ List.mem_map_of_mem (List.mem_of_find?_eq_some hc)

/-- A frame that is refused changes nothing. -/
theorem accept_refused (h : (assembler.accept frame).2 = false) :
    (assembler.accept frame).1 = assembler := by
  rcases accept_cases assembler frame with heq | ⟨heq, -⟩ | ⟨-, -, -, heq⟩
  · rw [heq]
  · rw [heq]
  · rw [heq] at h
    cases h

theorem chunk_accept (assembler : ChunkAssembler) (frame : ChunkFrame) (index : Nat) :
    (assembler.accept frame).1.chunk index = (assembler.chunk index).or
      (if frame.chunkIndex = index ∧ (assembler.accept frame).2 = true then some frame.payload
        else none) := by
  rcases accept_cases assembler frame with heq | ⟨heq, hstored⟩ | ⟨-, hnone, -, heq⟩
  · simp [heq]
  · rw [heq]
    by_cases hindex : frame.chunkIndex = index
    · subst hindex
      obtain ⟨payload, hpayload⟩ := Option.isSome_iff_exists.mp hstored
      simp [hpayload]
    · simp [hindex]
  · rw [heq]
    simp only [chunk, List.find?_append, and_true]
    cases hfind : assembler.chunks.find? fun c => decide (c.1 = index) with
    | some c => simp
    | none => by_cases hindex : frame.chunkIndex = index <;> simp [hindex]

/-! ## A run -/

theorem total_acceptAll (frames : List ChunkFrame) (assembler : ChunkAssembler) :
    (assembler.acceptAll frames).totalChunks = assembler.totalChunks := by
  induction frames generalizing assembler with
  | nil => rfl
  | cons frame rest ih => rw [acceptAll, ih, (accept_sizes assembler frame).1]

theorem size_acceptAll (frames : List ChunkFrame) (assembler : ChunkAssembler) :
    (assembler.acceptAll frames).expectedSizeBytes = assembler.expectedSizeBytes := by
  induction frames generalizing assembler with
  | nil => rfl
  | cons frame rest ih => rw [acceptAll, ih, (accept_sizes assembler frame).2]

theorem WellFormed.empty (totalChunks expectedSizeBytes : Nat) :
    WellFormed ⟨totalChunks, expectedSizeBytes, [], 0⟩ :=
  ⟨by simp, by simp, rfl, Nat.zero_le _⟩

theorem WellFormed.acceptAll (h : assembler.WellFormed) (frames : List ChunkFrame) :
    (assembler.acceptAll frames).WellFormed := by
  induction frames generalizing assembler with
  | nil => exact h
  | cons frame rest ih => exact ih (h.accept rfl)

/-- An index keeps the chunk it has, and otherwise takes the first that is accepted for it. -/
theorem chunk_acceptAll (assembler : ChunkAssembler) (frames : List ChunkFrame) (index : Nat) :
    (assembler.acceptAll frames).chunk index =
      (assembler.chunk index).or (firstAccepted index frames assembler) := by
  induction frames generalizing assembler with
  | nil => simp [acceptAll, firstAccepted]
  | cons frame rest ih =>
    rw [acceptAll, ih, chunk_accept, firstAccepted, Option.or_assoc]
    split <;> simp

theorem mem_missingIndices {index : Nat} :
    index ∈ assembler.missingIndices ↔
      index < assembler.totalChunks ∧ assembler.chunk index = none := by
  simp [missingIndices]

/-- What holds of an assembler after any frames. -/
structure SafeAfter (frames : List ChunkFrame) (start assembler : ChunkAssembler) : Prop where
  received : assembler.receivedBytes = (assembler.chunks.map (·.2.length)).sum
  fits : assembler.receivedBytes ≤ start.expectedSizeBytes
  /-- One chunk for an index, each for one of the indices of the transfer. -/
  distinct : (assembler.chunks.map (·.1)).Nodup
  range : ∀ index, assembler.chunk index ≠ none → index < start.totalChunks
  kept : ∀ index, assembler.chunk index = firstAccepted index frames start
  refused : ∀ frame, (assembler.accept frame).2 = false → (assembler.accept frame).1 = assembler
  missing : ∀ index, index ∈ assembler.missingIndices ↔
    index < start.totalChunks ∧ assembler.chunk index = none
  missing_sorted : assembler.missingIndices.Pairwise (· < ·)
  /-- A complete transfer is copied out: the payloads kept, one after the other. -/
  assembles : assembler.isComplete = true →
    (∀ index < start.totalChunks, assembler.chunk index ≠ none) ∧
    assembler.assembleOrThrow = .ok ((List.range start.totalChunks).flatMap fun index =>
      (assembler.chunk index).getD []) ∧
    ((List.range start.totalChunks).flatMap fun index =>
      (assembler.chunk index).getD []).length = start.expectedSizeBytes

/-- **The assembler is safe against any frames**: with at least one chunk to come it is created,
and whatever frames it is given it stays consistent, never holds more than was declared, and
hands out exactly the declared number of bytes once it is complete. -/
theorem safe_against_any_frames (totalChunks expectedSizeBytes : Nat) (hpos : 0 < totalChunks) :
    ∃ start, create totalChunks expectedSizeBytes = .ok start ∧
      start.totalChunks = totalChunks ∧ start.expectedSizeBytes = expectedSizeBytes ∧
      ∀ frames, SafeAfter frames start (start.acceptAll frames) := by
  refine ⟨⟨totalChunks, expectedSizeBytes, [], 0⟩, ?_, rfl, rfl, fun frames => ?_⟩
  · simp only [create, hpos, decide_true, assert_true]
    rfl
  have htotal := total_acceptAll frames ⟨totalChunks, expectedSizeBytes, [], 0⟩
  have hsize := size_acceptAll frames ⟨totalChunks, expectedSizeBytes, [], 0⟩
  have h := (WellFormed.empty totalChunks expectedSizeBytes).acceptAll frames
  refine ⟨h.received, hsize ▸ h.room, h.nodup, fun index hindex => ?_, fun index => ?_,
    fun frame => accept_refused, fun index => ?_, ?_, fun hcomplete => ?_⟩
  · obtain ⟨c, hc, rfl⟩ := List.mem_map.mp (mem_of_chunk hindex)
    exact htotal ▸ h.range c hc
  · rw [chunk_acceptAll]
    rfl
  · rw [mem_missingIndices, htotal]
  · exact List.pairwise_lt_range.filter _
  · obtain ⟨hstored, hlength⟩ := h.complete hcomplete
    rw [htotal] at hstored
    rw [assemble, htotal, hsize] at hlength
    refine ⟨fun index hindex => Option.isSome_iff_ne_none.mp (hstored index hindex), ?_, hlength⟩
    rw [h.assembleOrThrow hcomplete, assemble, htotal]

/-- Two chunks for three bytes. -/
theorem safe_against_any_frames_three :
    0 < 2 ∧ ∃ start, create 2 3 = .ok start ∧ start.totalChunks = 2 ∧
      start.expectedSizeBytes = 3 ∧
      ∀ frames, SafeAfter frames start (start.acceptAll frames) :=
  ⟨by decide, safe_against_any_frames 2 3 (by decide)⟩

-- A frame out of range, one that does not fit, and a second one for a chunk that is there.
example : assembleOrThrow (acceptAll
    [⟨7, 1, [3]⟩, ⟨7, 5, [9]⟩, ⟨7, 0, [1, 2, 4]⟩, ⟨7, 0, [1, 2]⟩, ⟨7, 0, [8, 8]⟩]
    ⟨2, 3, [], 0⟩) = .ok [1, 2, 3] := by decide

end ChunkAssembler

end PassVault
