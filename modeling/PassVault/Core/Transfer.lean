import Mathlib.Algebra.Order.BigOperators.Group.Finset
import PassVault.Core.Framing

/-!
# Chunked transfers

A revision is cut into chunks, each travels in a frame of its own, and the assembler of the
receiver puts them together again, in whatever order and however often the frames arrive.
-/

namespace PassVault

/-- `bytes.subarray(start, Math.min(start + chunkBytes, bytes.byteLength))`. -/
def chunkPayload (bytes : Bytes) (chunkBytes chunkIndex : Nat) : Bytes :=
  (bytes.drop (chunkIndex * chunkBytes)).take chunkBytes

/-- The frames that `serve` sends for a revision, in the order it sends them. -/
def encodeTransfer (bytes : Bytes) (chunkBytes transferSeq : Nat) : Except Failure (List Bytes) := do
  let totalChunks ← chunkCountFor bytes.length chunkBytes
  (List.range totalChunks).mapM fun chunkIndex =>
    encodeChunkFrame ⟨transferSeq, chunkIndex, chunkPayload bytes chunkBytes chunkIndex⟩

/-- Hand frames to the assembler; `none` when one does not decode or is not accepted. -/
def deliverFrames : List Bytes → ChunkAssembler → Option ChunkAssembler
  | [], assembler => some assembler
  | frame :: rest, assembler =>
    match decodeChunkFrame frame with
    | none => none
    | some frame =>
      match assembler.accept frame with
      | (assembler, true) => deliverFrames rest assembler
      | (_, false) => none

/-! ## Cutting -/

theorem chunkCountFor_ok {sizeBytes chunkBytes totalChunks : Nat}
    (h : chunkCountFor sizeBytes chunkBytes = .ok totalChunks) :
    0 < chunkBytes ∧ 0 < totalChunks ∧ sizeBytes ≤ totalChunks * chunkBytes := by
  unfold chunkCountFor at h
  obtain ⟨_, hpos, h⟩ := bind_eq_ok.mp h
  have hpos : 0 < chunkBytes := by simpa using assert_eq_ok.mp hpos
  cases h
  refine ⟨hpos, by omega, ?_⟩
  have hdiv := Nat.lt_mul_div_succ (sizeBytes + chunkBytes - 1) hpos
  have hmax := Nat.le_max_right 1 ((sizeBytes + chunkBytes - 1) / chunkBytes)
  have hmul := Nat.mul_le_mul_right chunkBytes hmax
  rw [Nat.mul_add, Nat.mul_comm chunkBytes] at hdiv
  omega

/-- The chunks, one after the other, are the bytes. -/
theorem flatMap_chunkPayload (bytes : Bytes) (chunkBytes count : Nat) :
    (List.range count).flatMap (chunkPayload bytes chunkBytes) =
      bytes.take (count * chunkBytes) := by
  induction count with
  | zero => simp
  | succ count ih =>
    rw [List.range_succ, List.flatMap_append, ih, Nat.succ_mul, List.take_add]
    simp [chunkPayload]

theorem sum_chunkPayload {bytes : Bytes} {chunkBytes count : Nat}
    (h : bytes.length ≤ count * chunkBytes) :
    ((List.range count).map fun i => (chunkPayload bytes chunkBytes i).length).sum =
      bytes.length := by
  have hall := congrArg List.length (flatMap_chunkPayload bytes chunkBytes count)
  rw [List.take_of_length_le h, List.length_flatMap] at hall
  exact hall

/-- Distinct chunks are no longer than the bytes. -/
theorem sum_arrived_le {bytes : Bytes} {chunkBytes count : Nat}
    (h : bytes.length ≤ count * chunkBytes) {arrived : List Nat} (hnodup : arrived.Nodup)
    (hrange : ∀ i ∈ arrived, i < count) :
    (arrived.map fun i => (chunkPayload bytes chunkBytes i).length).sum ≤ bytes.length := by
  rw [← sum_chunkPayload h, ← List.sum_toFinset _ hnodup, ← List.sum_toFinset _ List.nodup_range]
  apply Finset.sum_le_sum_of_subset
  intro i hi
  simpa using hrange i (List.mem_toFinset.mp hi)

/-! ## Putting together -/

/-- What an assembler holds when the chunks `arrived` have arrived. -/
structure Gathered (bytes : Bytes) (chunkBytes totalChunks : Nat) (arrived : List Nat)
    (assembler : ChunkAssembler) : Prop where
  total : assembler.totalChunks = totalChunks
  size : assembler.expectedSizeBytes = bytes.length
  nodup : arrived.Nodup
  range : ∀ i ∈ arrived, i < totalChunks
  chunks : assembler.chunks = arrived.map fun i => (i, chunkPayload bytes chunkBytes i)
  received : assembler.received =
    (arrived.map fun i => (chunkPayload bytes chunkBytes i).length).sum

namespace Gathered

variable {bytes : Bytes} {chunkBytes totalChunks : Nat} {arrived : List Nat}
  {assembler : ChunkAssembler}

theorem nil (bytes : Bytes) (chunkBytes : Nat) (totalChunks : Nat) :
    Gathered bytes chunkBytes totalChunks [] ⟨totalChunks, bytes.length, [], 0⟩ :=
  ⟨rfl, rfl, .nil, by simp, rfl, rfl⟩

theorem chunk (h : Gathered bytes chunkBytes totalChunks arrived assembler) (i : Nat) :
    assembler.chunk i = if i ∈ arrived then some (chunkPayload bytes chunkBytes i) else none := by
  have hfind : ∀ ids : List Nat,
      ((ids.map fun i => (i, chunkPayload bytes chunkBytes i)).find? (·.1 = i)).map (·.2) =
        if i ∈ ids then some (chunkPayload bytes chunkBytes i) else none := by
    intro ids
    induction ids with
    | nil => simp
    | cons j ids ih =>
      by_cases hji : j = i
      · simp [hji]
      · have hij : ¬ i = j := fun e => hji e.symm
        simpa [hji, hij] using ih
  rw [ChunkAssembler.chunk, h.chunks, hfind]

/-- A frame of the transfer is accepted, whether or not its chunk is there already. -/
theorem accept (h : Gathered bytes chunkBytes totalChunks arrived assembler)
    (hcount : bytes.length ≤ totalChunks * chunkBytes) {i : Nat} (hi : i < totalChunks)
    (transferSeq : Nat) :
    ∃ after, assembler.accept ⟨transferSeq, i, chunkPayload bytes chunkBytes i⟩ = (after, true) ∧
      Gathered bytes chunkBytes totalChunks (if i ∈ arrived then arrived else arrived ++ [i])
        after := by
  unfold ChunkAssembler.accept
  have hin : ¬ totalChunks ≤ i := Nat.not_le.mpr hi
  rw [h.total, if_neg hin, h.chunk i]
  by_cases hmem : i ∈ arrived
  · exact ⟨assembler, by simp [hmem], by simpa [hmem] using h⟩
  have hnodup : (arrived ++ [i]).Nodup := by
    simpa using List.Nodup.concat hmem h.nodup
  have hrange : ∀ j ∈ arrived ++ [i], j < totalChunks := by
    intro j hj
    rcases List.mem_append.mp hj with hj | hj
    · exact h.range j hj
    · rw [List.mem_singleton.mp hj]
      exact hi
  have hsum := sum_arrived_le hcount hnodup hrange
  have hroom : ¬ assembler.expectedSizeBytes <
      assembler.received + (chunkPayload bytes chunkBytes i).length := by
    simp only [List.map_append, List.sum_append, List.map_cons, List.map_nil, List.sum_cons,
      List.sum_nil] at hsum
    rw [h.size, h.received]
    omega
  simp only [hmem, if_false, Option.isSome_none, Bool.false_eq_true, if_neg hroom]
  refine ⟨_, rfl, rfl, h.size, hnodup, hrange, ?_, ?_⟩
  · simp [h.chunks]
  · simp [h.received]

/-- A transfer is complete when every chunk has arrived, and not before. -/
theorem isComplete_iff (h : Gathered bytes chunkBytes totalChunks arrived assembler)
    (hcount : bytes.length ≤ totalChunks * chunkBytes) :
    assembler.isComplete = true ↔ ∀ i < totalChunks, i ∈ arrived := by
  have hlength : assembler.chunks.length = arrived.length := by simp [h.chunks]
  have hsub : arrived ⊆ List.range totalChunks := fun i hi => List.mem_range.mpr (h.range i hi)
  have hsubperm := List.subperm_of_subset h.nodup hsub
  unfold ChunkAssembler.isComplete
  rw [decide_eq_true_iff, hlength, h.total, h.size, h.received]
  constructor
  · rintro ⟨hall, -⟩ i hi
    have hperm := hsubperm.perm_of_length_le (by simp [hall])
    exact hperm.mem_iff.mpr (List.mem_range.mpr hi)
  · intro hall
    have hperm : arrived.Perm (List.range totalChunks) := by
      apply (List.perm_ext_iff_of_nodup h.nodup List.nodup_range).mpr
      intro i
      exact ⟨fun hi => hsub hi, fun hi => hall i (List.mem_range.mp hi)⟩
    constructor
    · simpa using hperm.length_eq
    · rw [← List.sum_toFinset _ h.nodup, List.toFinset_eq_of_perm _ _ hperm,
        List.sum_toFinset _ List.nodup_range, sum_chunkPayload hcount]

theorem assemble (h : Gathered bytes chunkBytes totalChunks arrived assembler)
    (hcount : bytes.length ≤ totalChunks * chunkBytes) (hall : ∀ i < totalChunks, i ∈ arrived) :
    assembler.assemble = bytes := by
  unfold ChunkAssembler.assemble
  rw [h.total]
  have hchunks : (List.range totalChunks).flatMap (fun i => (assembler.chunk i).getD []) =
      (List.range totalChunks).flatMap (chunkPayload bytes chunkBytes) := by
    apply List.flatMap_congr
    intro i hi
    simp [h.chunk i, hall i (List.mem_range.mp hi)]
  rw [hchunks, flatMap_chunkPayload, List.take_of_length_le hcount]

end Gathered

/-! ## A whole transfer -/

theorem mapM_eq_ok {φ α β : Type} {f : α → Except φ β} {l : List α} {r : List β} :
    l.mapM f = .ok r ↔ List.Forall₂ (fun a b => f a = .ok b) l r := by
  induction l generalizing r with
  | nil => cases r <;> simp [pure, Except.pure]
  | cons a l ih =>
    rw [List.mapM_cons, bind_eq_ok]
    constructor
    · rintro ⟨b, hb, h⟩
      obtain ⟨bs, hbs, h⟩ := bind_eq_ok.mp h
      cases h
      exact .cons hb (ih.mp hbs)
    · rintro (_ | ⟨hb, hbs⟩)
      exact ⟨_, hb, bind_eq_ok.mpr ⟨_, ih.mpr hbs, rfl⟩⟩

theorem forall₂_mem {α β : Type} {R : α → β → Prop} {l : List α} {r : List β}
    (h : List.Forall₂ R l r) : (∀ b ∈ r, ∃ a ∈ l, R a b) ∧ ∀ a ∈ l, ∃ b ∈ r, R a b := by
  induction h with
  | nil => simp
  | cons hab _ ih =>
    rw [List.forall_mem_cons, List.forall_mem_cons]
    refine ⟨⟨⟨_, List.mem_cons_self, hab⟩, fun b hb => ?_⟩, ⟨_, List.mem_cons_self, hab⟩,
      fun a ha => ?_⟩
    · obtain ⟨a, ha, h⟩ := ih.1 b hb
      exact ⟨a, List.mem_cons_of_mem _ ha, h⟩
    · obtain ⟨b, hb, h⟩ := ih.2 a ha
      exact ⟨b, List.mem_cons_of_mem _ hb, h⟩

theorem exists_mapM {α β : Type} {f : α → Except Failure β} {l : List α}
    (h : ∀ a ∈ l, ∃ b, f a = .ok b) : ∃ r, l.mapM f = .ok r := by
  induction l with
  | nil => exact ⟨[], rfl⟩
  | cons a l ih =>
    obtain ⟨b, hb⟩ := h a List.mem_cons_self
    obtain ⟨r, hr⟩ := ih fun a ha => h a (List.mem_cons_of_mem _ ha)
    exact ⟨b :: r, by rw [List.mapM_cons, hb, hr]; rfl⟩

theorem exists_encodeChunkFrame {frame : ChunkFrame} (hseq : frame.transferSeq < 2 ^ 32)
    (hindex : frame.chunkIndex < 2 ^ 32) : ∃ bytes, encodeChunkFrame frame = .ok bytes := by
  have hseq : frame.transferSeq ≤ maxUint32 := Nat.le_of_lt_succ hseq
  have hindex : frame.chunkIndex ≤ maxUint32 := Nat.le_of_lt_succ hindex
  simp only [encodeChunkFrame, hseq, hindex, decide_true, assert_true]
  exact ⟨_, rfl⟩

/-- The frame that carries a chunk. -/
def CarriesChunk (bytes : Bytes) (chunkBytes transferSeq i : Nat) (frame : Bytes) : Prop :=
  encodeChunkFrame ⟨transferSeq, i, chunkPayload bytes chunkBytes i⟩ = .ok frame

/-- A frame carries one chunk only. -/
theorem CarriesChunk.unique {bytes : Bytes} {chunkBytes transferSeq i j : Nat} {frame : Bytes}
    (hi : CarriesChunk bytes chunkBytes transferSeq i frame)
    (hj : CarriesChunk bytes chunkBytes transferSeq j frame) : i = j := by
  have hsame := (decode_encodeChunkFrame hi).symm.trans (decode_encodeChunkFrame hj)
  simp only [Option.some.injEq, ChunkFrame.mk.injEq] at hsame
  exact hsame.2.1

section Transfer

variable {bytes : Bytes} {chunkBytes transferSeq totalChunks : Nat} {sent : List Bytes}

/-- The frames of a transfer, one for each chunk. -/
theorem mem_encodeTransfer (hcount : chunkCountFor bytes.length chunkBytes = .ok totalChunks)
    (hsent : encodeTransfer bytes chunkBytes transferSeq = .ok sent) :
    (∀ frame ∈ sent, ∃ i < totalChunks, CarriesChunk bytes chunkBytes transferSeq i frame) ∧
      ∀ i < totalChunks, ∃ frame ∈ sent, CarriesChunk bytes chunkBytes transferSeq i frame := by
  rw [encodeTransfer, hcount] at hsent
  have hall := mapM_eq_ok.mp hsent
  constructor
  · intro frame hframe
    obtain ⟨i, hi, hcarries⟩ := (forall₂_mem hall).1 frame hframe
    exact ⟨i, List.mem_range.mp hi, hcarries⟩
  · intro i hi
    exact (forall₂_mem hall).2 i (List.mem_range.mpr hi)

theorem exists_encodeTransfer (hcount : chunkCountFor bytes.length chunkBytes = .ok totalChunks)
    (hseq : transferSeq < 2 ^ 32) (htotal : totalChunks < 2 ^ 32) :
    ∃ sent, encodeTransfer bytes chunkBytes transferSeq = .ok sent := by
  rw [encodeTransfer, hcount]
  apply exists_mapM
  intro i hi
  have hi := List.mem_range.mp hi
  exact exists_encodeChunkFrame hseq (Nat.lt_trans hi htotal)

/-- Frames of the transfer, however they arrive, add the chunks that they carry. -/
theorem Gathered.deliver (hcount : bytes.length ≤ totalChunks * chunkBytes)
    {delivered : List Bytes}
    (hdelivered : ∀ frame ∈ delivered,
      ∃ i < totalChunks, CarriesChunk bytes chunkBytes transferSeq i frame)
    {arrived : List Nat} {assembler : ChunkAssembler}
    (h : Gathered bytes chunkBytes totalChunks arrived assembler) :
    ∃ arrived' after, deliverFrames delivered assembler = some after ∧
      Gathered bytes chunkBytes totalChunks arrived' after ∧
      ∀ i, i ∈ arrived' ↔ i ∈ arrived ∨
        ∃ frame ∈ delivered, CarriesChunk bytes chunkBytes transferSeq i frame := by
  induction delivered generalizing arrived assembler with
  | nil => exact ⟨arrived, assembler, rfl, h, by simp⟩
  | cons frame rest ih =>
    obtain ⟨i, hi, hcarries⟩ := hdelivered frame List.mem_cons_self
    obtain ⟨next, haccept, hnext⟩ := h.accept hcount hi transferSeq
    obtain ⟨arrived', after, hdeliver, hafter, hmem⟩ :=
      ih (fun frame hframe => hdelivered frame (List.mem_cons_of_mem _ hframe)) hnext
    refine ⟨arrived', after, ?_, hafter, fun j => ?_⟩
    · rw [deliverFrames, decode_encodeChunkFrame hcarries]
      dsimp only
      rw [haccept]
      exact hdeliver
    · have hnew : (j ∈ if i ∈ arrived then arrived else arrived ++ [i]) ↔ j ∈ arrived ∨ j = i := by
        split
        · rename_i hmem
          constructor
          · exact Or.inl
          · rintro (hj | rfl)
            · exact hj
            · exact hmem
        · simp
      rw [hmem j, hnew, or_assoc]
      apply or_congr_right
      constructor
      · rintro (rfl | ⟨other, hother, hj⟩)
        · exact ⟨frame, List.mem_cons_self, hcarries⟩
        · exact ⟨other, List.mem_cons_of_mem _ hother, hj⟩
      · rintro ⟨other, hother, hj⟩
        rcases List.mem_cons.mp hother with rfl | hother
        · exact .inl (hj.unique hcarries)
        · exact .inr ⟨other, hother, hj⟩

end Transfer

/-- Chunked transfer is lossless: whatever frames of a transfer arrive, in whatever order and
however often, each is accepted, the transfer is complete exactly when all of them have arrived,
and then the bytes are those that were sent. -/
theorem transfer_lossless (bytes : Bytes) (chunkBytes transferSeq totalChunks : Nat)
    (hcount : chunkCountFor bytes.length chunkBytes = .ok totalChunks)
    (hseq : transferSeq < 2 ^ 32) (htotal : totalChunks < 2 ^ 32) :
    ∃ sent assembler, encodeTransfer bytes chunkBytes transferSeq = .ok sent ∧
      ChunkAssembler.create totalChunks bytes.length = .ok assembler ∧
      ∀ delivered : List Bytes, delivered ⊆ sent →
        ∃ after, deliverFrames delivered assembler = some after ∧
          (after.isComplete = true ↔ sent ⊆ delivered) ∧
          (sent ⊆ delivered → after.assemble = bytes) := by
  obtain ⟨-, hpos, hsize⟩ := chunkCountFor_ok hcount
  obtain ⟨sent, hsent⟩ := exists_encodeTransfer hcount hseq htotal
  obtain ⟨hcarried, hcarrier⟩ := mem_encodeTransfer hcount hsent
  have hcreate : ChunkAssembler.create totalChunks bytes.length =
      .ok ⟨totalChunks, bytes.length, [], 0⟩ := by
    simp only [ChunkAssembler.create, hpos, decide_true, assert_true]
    rfl
  refine ⟨sent, _, hsent, hcreate, fun delivered hdelivered => ?_⟩
  obtain ⟨arrived, after, hdeliver, hafter, hmem⟩ :=
    (Gathered.nil bytes chunkBytes totalChunks).deliver hsize
      fun frame hframe => hcarried frame (hdelivered hframe)
  have hall : (∀ i < totalChunks, i ∈ arrived) ↔ sent ⊆ delivered := by
    constructor
    · intro h frame hframe
      obtain ⟨i, hi, hcarries⟩ := hcarried frame hframe
      rcases (hmem i).mp (h i hi) with hnil | ⟨other, hother, hcarries'⟩
      · cases hnil
      · cases hcarries.symm.trans hcarries'
        exact hother
    · intro h i hi
      obtain ⟨frame, hframe, hcarries⟩ := hcarrier i hi
      exact (hmem i).mpr (.inr ⟨frame, h hframe, hcarries⟩)
  refine ⟨after, hdeliver, (hafter.isComplete_iff hsize).trans hall, fun h => ?_⟩
  exact hafter.assemble hsize (hall.mpr h)

/-- Three bytes in chunks of two. -/
theorem transfer_lossless_three :
    ∃ sent assembler, encodeTransfer [1, 2, 3] 2 7 = .ok sent ∧
      ChunkAssembler.create 2 3 = .ok assembler ∧
      ∀ delivered : List Bytes, delivered ⊆ sent →
        ∃ after, deliverFrames delivered assembler = some after ∧
          (after.isComplete = true ↔ sent ⊆ delivered) ∧
          (sent ⊆ delivered → after.assemble = [1, 2, 3]) :=
  transfer_lossless [1, 2, 3] 2 7 2 rfl (by decide) (by decide)

end PassVault
